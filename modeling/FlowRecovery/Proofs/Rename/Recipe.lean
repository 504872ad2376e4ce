import FlowRecovery.Proofs.Recipe
import FlowRecovery.Proofs.Rename.Build

/-!
# `FlowRecovery.Proofs.Rename.Recipe`: recipes under other numbers

What `FlowRecovery.Proofs.Rename.Build` says of single operations is
carried over to recipes. A recipe can hold values as they are, so it is
renamed along with the state it runs in. Then each step tracks the renamed
step (`Step.tracks_run`), and so do whole recipes, arms and the queue
(`tracks_exec`, `Arm.tracks_run`, `tracks_drain`). Returning to a
checkpoint is no exception: checkpoints are part of the state that is
renamed.
-/

set_option autoImplicit false

namespace FlowRecovery.Recipe

/-! ### Renaming -/

section Definitions

variable (f : AssignId → AssignId)

/-- Rename a value that stands in a recipe as it is. -/
def Leaf.rename : Leaf → Leaf
  | .value v => .value (v.rename f)
  | .reg r => .reg r
  | .temp name => .temp name
  | .undecodable reason => .undecodable reason

/-- Rename every leaf. -/
def Term.rename (e : Term) : Term := e.map (Leaf.rename f)

/-- Rename what an exit is evaluated from. -/
def Closing.rename : Closing → Closing
  | .fetch => .fetch
  | .branch cond onTrue onFalse => .branch (Term.rename f cond) onTrue onFalse
  | .failed addr reason => .failed addr reason
  | .arch name args => .arch name (args.map (Term.rename f))

/-- Rename the terms of a step, or the statement that it appends. -/
def Step.rename : Step → Step
  | .bind name e => .bind name (Term.rename f e)
  | .load name addr bytes => .load name (Term.rename f addr) bytes
  | .prim name primitive args ty isPure =>
    .prim name primitive (args.map (Term.rename f)) ty isPure
  | .set r e => .set r (Term.rename f e)
  | .store addr value => .store (Term.rename f addr) (Term.rename f value)
  | .emit s => .emit (s.rename f)
  | .arch name args => .arch name (args.map (Term.rename f))
  | .close c => .close (c.rename f)
  | .setIp addr => .setIp addr
  | .advance => .advance
  | .fail reason => .fail reason
  | .moveTo addr => .moveTo addr
  | .save name => .save name
  | .restore name => .restore name
  | .look => .look

/-- Rename every step, those of the arms included. -/
def rename : Recipe → Recipe
  | .done => .done
  | .step s rest => .step (s.rename f) (rename rest)
  | .branch cond onTrue onFalse rest =>
    .branch (Term.rename f cond) (rename onTrue) (rename onFalse) (rename rest)

/-- Rename the results that have been bound. -/
def Temps.rename (temps : Temps) : Temps := temps.map (Prod.map id (Value.rename f))

/-- Rename an arm, with the registers it starts from. -/
def Arm.rename (arm : Arm) : Arm :=
  { arm with
    regs := arm.regs.rename f
    temps := Temps.rename f arm.temps
    body := arm.body.rename f }

/-- Rename what a step has given. -/
def Outcome.rename : Outcome → Outcome
  | .nothing => .nothing
  | .value v => .value (v.rename f)
  | .block index => .block index

end Definitions

/-- Renaming keeps the size, which bounds how long the queue is worked
off. -/
theorem size_rename (f : AssignId → AssignId) (r : Recipe) : (r.rename f).size = r.size := by
  induction r with
  | done => rfl
  | step s rest ih => exact ih
  | branch cond onTrue onFalse rest iht ihf ihr => simp only [rename, size, iht, ihf, ihr]

/-! ### States that are alike -/

/-- The same step has had the same result, but for the renaming. -/
structure Event.Matches (f : AssignId → AssignId) (e e' : Event) : Prop where
  step : e'.step = e.step.map (Step.rename f)
  result : e'.result = e.result.map (Outcome.rename f)
  after : e.after.Matches f e'.after

/-- The second state of a run is the first one with its assignments
renamed, as far as anyone can see. -/
structure Progress.Matches (f : AssignId → AssignId) (p q : Progress) : Prop where
  builder : p.builder.Matches f q.builder
  pending : q.pending = p.pending.map (Arm.rename f)
  saved : q.saved = p.saved.map (Prod.map id (Checkpoint.rename f))
  trace : List.Forall₂ (Event.Matches f) p.trace q.trace

/-- The states match, their builders are alike, and all block numbers
belong to the present run. -/
structure Progress.Alike (ρ : Renumbering) (p q : Progress) : Prop where
  builder : p.builder.Alike ρ q.builder
  pending : q.pending = p.pending.map (Arm.rename ρ.name)
  saved : q.saved = p.saved.map (Prod.map id (Checkpoint.rename ρ.name))
  trace : List.Forall₂ (Event.Matches ρ.name) p.trace q.trace
  arms : ∀ arm ∈ p.pending, ρ.first ≤ arm.index
  checkpoints : ∀ entry ∈ p.saved,
    ρ.first ≤ entry.2.next ∧ ∀ blk ∈ entry.2.current, ρ.first ≤ blk.index

variable {ρ : Renumbering}

/-- States that are alike look alike. -/
theorem Progress.Alike.toMatches {p q : Progress} (h : p.Alike ρ q) : p.Matches ρ.name q :=
  ⟨h.builder.toMatches, h.pending, h.saved, h.trace⟩

/-- Tracking for parts of a run. -/
abbrev Tracks (ρ : Renumbering) {α β : Type} (g : α → β) (x : RunM α) (y : RunM β) : Prop :=
  FlowRecovery.Tracks (Progress.Alike ρ) (fun p => p.builder.issued) ρ.limit g x y

variable {α β : Type} {g : α → β} {site : Site} {temps : Temps}

/-- An operation of construction, as part of a recipe. -/
theorem tracks_build {x : Build α} {y : Build β} (h : Build.Tracks ρ g x y) :
    Tracks ρ g (build x) (build y) := by
  refine ⟨fun p => h.counts p.builder, fun p q hpq hle => ?_⟩
  obtain ⟨hbuilder, hresult⟩ := h.follows p.builder q.builder hpq.builder hle
  exact ⟨⟨hbuilder, hpq.pending, hpq.saved, hpq.trace, hpq.arms, hpq.checkpoints⟩, hresult⟩

/-- The record of both sides grows by events that match. -/
theorem tracks_recorded {x : RunM α} {y : RunM β} (h : Tracks ρ g x y) (step : Option Step)
    {outcome : α → Outcome} {outcome' : β → Outcome}
    (houtcome : ∀ a, outcome' (g a) = (outcome a).rename ρ.name) :
    Tracks ρ g (recorded step outcome x)
      (recorded (step.map (Step.rename ρ.name)) outcome' y) := by
  refine ⟨h.counts, fun p q hpq hle => ?_⟩
  obtain ⟨hstate, hresult⟩ := h.follows p q hpq hle
  refine ⟨⟨hstate.builder, hstate.pending, hstate.saved, ?_, hstate.arms, hstate.checkpoints⟩,
    hresult⟩
  refine .cons ⟨rfl, ?_, hstate.builder.toMatches⟩ hstate.trace
  show (y q).1.map outcome' = ((x p).1.map outcome).map (Outcome.rename ρ.name)
  rw [hresult]
  cases (x p).1 with
  | error e => rfl
  | ok a => exact congrArg Except.ok (houtcome a)

/-! ### Terms -/

/-- A leaf is looked up. -/
theorem Leaf.tracks_resolve (l : Leaf) :
    Tracks ρ (Value.rename ρ.name) (l.resolve site temps)
      ((l.rename ρ.name).resolve site (Temps.rename ρ.name temps)) := by
  cases l with
  | value v => exact .pure _ v
  | reg r => exact tracks_build (.getRegister r)
  | undecodable reason => exact .fail _ _
  | temp name =>
    have hlookup : (Temps.rename ρ.name temps).lookup name =
        (temps.lookup name).map (Value.rename ρ.name) := lookup_map (fun _ _ => rfl) _ temps name
    simp only [rename, resolve, hlookup]
    cases temps.lookup name with
    | none => exact .fail _ _
    | some v => exact .pure _ v

/-- A term is looked up leaf by leaf. -/
theorem tracks_resolve (e : Term) :
    Tracks ρ (Expr.map (Value.rename ρ.name)) (e.resolve (Leaf.resolve site temps))
      ((Term.rename ρ.name e).resolve (Leaf.resolve site (Temps.rename ρ.name temps))) := by
  induction e with
  | leaf l => exact (Leaf.tracks_resolve l).map fun _ => rfl
  | unary op arg ih => exact ih.map fun _ => rfl
  | ext op arg width ih => exact ih.map fun _ => rfl
  | binary op left right ihl ihr =>
    exact ihl.bind fun l => ihr.bind fun r => .pure _ (Expr.binary op l r)
  | select cond onTrue onFalse ihc iht ihf =>
    exact ihc.bind fun c => iht.bind fun t => ihf.bind fun f => .pure _ (Expr.select c t f)

/-- A term is looked up and then evaluated. -/
theorem tracks_evalTerm (e : Term) :
    Tracks ρ (Value.rename ρ.name) (evalTerm site temps e)
      (evalTerm site (Temps.rename ρ.name temps) (Term.rename ρ.name e)) :=
  (tracks_resolve e).bind fun e => tracks_build (.evaluate e)

/-- So is a list of terms. -/
theorem tracks_evalTerms (es : List Term) :
    Tracks ρ (List.map (Value.rename ρ.name)) (evalTerms site temps es)
      (evalTerms site (Temps.rename ρ.name temps) (es.map (Term.rename ρ.name))) := by
  induction es with
  | nil => exact .pure _ []
  | cons e rest ih =>
    exact (tracks_evalTerm e).bind fun v => ih.bind fun vs => .pure _ (v :: vs)

/-! ### Steps -/

/-- A block is closed, after what its exit mentions has been evaluated. -/
theorem Closing.tracks_run (c : Closing) :
    Tracks ρ id (c.run site temps)
      ((c.rename ρ.name).run site (Temps.rename ρ.name temps)) := by
  cases c with
  | fetch =>
    have hclose : Build.Tracks ρ id (Build.close .fetch) (Build.close .fetch) :=
      .close fun _ => rfl
    exact tracks_build hclose
  | branch cond onTrue onFalse =>
    have hclose (v : Value) :
        Build.Tracks ρ id (Build.close fun _ => .branch v onTrue onFalse)
          (Build.close fun _ => .branch (v.rename ρ.name) onTrue onFalse) := .close fun _ => rfl
    exact (tracks_evalTerm cond).bind fun v => tracks_build (hclose v)
  | failed addr reason =>
    have hclose : Build.Tracks ρ id (Build.close (.failed · addr reason))
        (Build.close (.failed · addr reason)) := .close fun _ => rfl
    exact tracks_build hclose
  | arch name args =>
    have hclose (vs : List Value) :
        Build.Tracks ρ id (Build.close (.arch · name vs))
          (Build.close (.arch · name (vs.map (Value.rename ρ.name)))) := .close fun _ => rfl
    exact (tracks_evalTerms args).bind fun vs => tracks_build (hclose vs)

/-- A checkpoint is taken on both sides. -/
theorem tracks_save (name : String) :
    Tracks ρ id
      (modify fun p => { p with saved := (name, p.builder.checkpoint) :: p.saved } : RunM Unit)
      (modify fun p =>
        { p with saved := (name, p.builder.checkpoint) :: p.saved } : RunM Unit) := by
  refine ⟨fun p => Nat.le_refl _, fun p q h _ => ⟨?_, rfl⟩⟩
  have hcheckpoint : q.builder.checkpoint = p.builder.checkpoint.rename ρ.name := by
    rw [Builder.checkpoint, h.builder.current, h.builder.ledger.finished, h.builder.ledger.next,
      h.builder.instrAddr, List.length_map]
    rfl
  refine ⟨h.builder, h.pending, ?_, h.trace, h.arms, ?_⟩
  · show (name, q.builder.checkpoint) :: q.saved = _
    rw [hcheckpoint, h.saved]
    rfl
  · intro entry hentry
    cases hentry with
    | head => exact ⟨h.builder.ledger.first_le, h.builder.first_le⟩
    | tail _ hold => exact h.checkpoints entry hold

/-- Returning to a checkpoint. -/
theorem tracks_rollback {c : Checkpoint} (hnext : ρ.first ≤ c.next)
    (hcurrent : ∀ blk ∈ c.current, ρ.first ≤ blk.index) :
    Build.Tracks ρ id (Build.rollback c) (Build.rollback (c.rename ρ.name)) := by
  refine ⟨fun b => ?_, fun b d h _ => ?_⟩
  · rw [Build.rollback_apply]
    split <;> exact Nat.le_refl _
  · -- Both sides have as many blocks left.
    have hleft : d.ledger.finished.length = b.ledger.finished.length := by
      rw [h.ledger.finished, List.length_map]
    have hkept : (c.rename ρ.name).finished = c.finished := rfl
    rw [Build.rollback_apply, Build.rollback_apply, hkept, hleft]
    split
    · exact ⟨h.rollback hnext hcurrent, rfl⟩
    · exact ⟨h, rfl⟩

/-- Every step does the same on both sides. -/
theorem Step.tracks_run (s : Step) :
    Tracks ρ (Prod.map (Temps.rename ρ.name) (Outcome.rename ρ.name)) (s.run site temps)
      ((s.rename ρ.name).run site (Temps.rename ρ.name temps)) := by
  have hdone : Tracks ρ (Prod.map (Temps.rename ρ.name) (Outcome.rename ρ.name))
      (pure (temps, .nothing)) (pure (Temps.rename ρ.name temps, .nothing)) :=
    .pure _ (temps, Outcome.nothing)
  cases s with
  | bind name e =>
    exact (tracks_evalTerm e).bind fun v => .pure _ ((name, v) :: temps, Outcome.value v)
  | load name addr bytes =>
    exact (tracks_evalTerm addr).bind fun a =>
      (tracks_build (.load site.machine site.image a bytes)).bind fun v =>
        .pure _ ((name, v) :: temps, Outcome.value v)
  | prim name primitive args ty isPure =>
    exact (tracks_evalTerms args).bind fun vs =>
      (tracks_build (.define (.prim ⟨primitive, vs, ty, isPure⟩) ty isPure)).bind fun v =>
        .pure _ ((name, v) :: temps, Outcome.value v)
  | set r e =>
    exact (tracks_evalTerm e).bind fun v =>
      (tracks_build (.setRegister site.machine r v)).bind fun _ => hdone
  | setIp addr =>
    exact (tracks_build (.setRegister site.machine site.machine.ip (site.machine.addr addr))).bind
      fun _ => hdone
  | advance =>
    exact (tracks_build (.setRegister site.machine site.machine.ip
      (site.machine.addr site.next))).bind fun _ => hdone
  | store addr value =>
    exact (tracks_evalTerm addr).bind fun a => (tracks_evalTerm value).bind fun v =>
      (tracks_build (.store site.machine a v)).bind fun _ => hdone
  | emit s => exact (tracks_build (.emit s)).bind fun _ => hdone
  | arch name args =>
    exact (tracks_evalTerms args).bind fun vs =>
      (tracks_build (.emit (.arch name vs))).bind fun _ => hdone
  | close c =>
    exact (Closing.tracks_run c).bind fun index => .pure _ (temps, Outcome.block index)
  | fail reason => exact .fail _ _
  | moveTo addr =>
    refine (tracks_build (g := id) ⟨fun b => Nat.le_refl _, fun b c h _ => ⟨?_, rfl⟩⟩).bind
      fun _ => hdone
    exact ⟨h.ledger, h.current, h.first_le, rfl, h.low_le, h.issued⟩
  | save name => exact (tracks_save name).bind fun _ => hdone
  | restore name =>
    refine ⟨fun p => ?_, fun p q h => ?_⟩
    · rw [Step.restore_apply]
      cases p.saved.lookup name with
      | none => exact Nat.le_refl _
      | some c =>
        refine Preserves.bind (I := fun q => p.builder.issued ≤ q.builder.issued) ?_
          (fun _ => .pure _) p (Nat.le_refl _)
        intro q hq
        rw [build_apply, Build.rollback_apply]
        split <;> exact hq
    · -- Both sides know the name, or neither does.
      have hlookup : q.saved.lookup name =
          (p.saved.lookup name).map (Checkpoint.rename ρ.name) := by
        rw [h.saved]
        exact lookup_map (fun _ _ => rfl) _ p.saved name
      rw [Step.rename, Step.restore_apply, Step.restore_apply, hlookup]
      cases hsaved : p.saved.lookup name with
      | none => exact fun _ => ⟨h, rfl⟩
      | some c =>
        obtain ⟨hnext, hcurrent⟩ := h.checkpoints _ (mem_of_lookup_eq_some hsaved)
        exact ((tracks_build (tracks_rollback hnext hcurrent)).bind fun _ => hdone).follows p q h
  | look => exact hdone

/-! ### Recipes, arms and the queue -/

/-- Both sides queue arms for blocks of the same numbers. -/
theorem tracks_queueArms (cond : Value) (onTrue onFalse : Recipe) :
    Tracks ρ id (queueArms cond onTrue onFalse temps)
      (queueArms (cond.rename ρ.name) (onTrue.rename ρ.name) (onFalse.rename ρ.name)
        (Temps.rename ρ.name temps)) := by
  have hsplit : Tracks ρ _ (build (Build.split cond)) (build (Build.split (cond.rename ρ.name))) :=
    tracks_build (.split cond)
  constructor
  · intro p
    have hp := hsplit.counts p
    rw [queueArms, bind_apply]
    cases hx : build (Build.split cond) p with
    | mk result p' =>
      rw [hx] at hp
      cases result with
      | error e => exact hp
      | ok arms => exact hp
  · intro p q h
    have hfollows := hsplit.follows p q h
    rw [queueArms, queueArms, bind_apply, bind_apply]
    cases hx : build (Build.split cond) p with
    | mk result p' =>
      cases hy : build (Build.split (cond.rename ρ.name)) q with
      | mk result' q' =>
        rw [hx, hy] at hfollows
        intro hle
        cases result with
        | error e =>
          obtain ⟨hstate, hresult⟩ := hfollows hle
          simp only at hstate hresult
          rw [hresult]
          exact ⟨hstate, rfl⟩
        | ok arms =>
          obtain ⟨t, f, regs⟩ := arms
          obtain ⟨hstate, hresult⟩ := hfollows hle
          simp only at hstate hresult
          rw [hresult]
          -- The numbers of a split are the next ones, which belong to the run.
          obtain ⟨b, hb, rfl⟩ := build_eq_ok_iff.1 hx
          obtain ⟨-, -, rfl, rfl, -⟩ := Build.split_eq_ok_iff.1 hb
          have hfirst : ρ.first ≤ p.builder.ledger.next := h.builder.ledger.first_le
          refine ⟨⟨hstate.builder, ?_, hstate.saved, hstate.trace, ?_, hstate.checkpoints⟩, rfl⟩
          · show q'.pending ++ _ = (p.pending ++ _).map _
            rw [hstate.pending, List.map_append]
            rfl
          · intro arm harm
            cases List.mem_append.1 harm with
            | inl hold => exact h.arms arm hold
            | inr hnew =>
              simp only [List.mem_cons, List.not_mem_nil, or_false] at hnew
              cases hnew with
              | inl heq => exact heq ▸ hfirst
              | inr heq => exact heq ▸ Nat.le_succ_of_le hfirst

/-- A recipe, with what follows its splits. Induction on the recipe. -/
theorem tracks_exec {settle : RunM Unit} (hsettle : Tracks ρ id settle settle) (r : Recipe)
    (temps : Temps) :
    Tracks ρ id (exec site settle r temps)
      (exec site settle (r.rename ρ.name) (Temps.rename ρ.name temps)) := by
  induction r generalizing temps with
  | done => exact .pure id ()
  | step s rest ih =>
    exact (tracks_recorded s.tracks_run (some s) fun _ => rfl).bind fun result => ih result.1
  | branch cond onTrue onFalse rest iht ihf ihr =>
    refine FlowRecovery.Tracks.bind (g := id) ?_ fun _ => ihr temps
    refine tracks_recorded (g := id) ?_ none fun _ => rfl
    refine (tracks_evalTerm cond).bind fun v => (tracks_build (.checkCondition v)).bind fun _ => ?_
    -- A literal takes its arm at once; anything else splits.
    cases v with
    | bool b =>
      cases b with
      | true => exact iht temps
      | false => exact ihf temps
    | bv | reloc | initial | returnAddr | clobbered | assign =>
      exact (tracks_queueArms _ onTrue onFalse).bind fun _ => hsettle

/-- An arm opens its block, is carried out, and closes it. -/
theorem Arm.tracks_run {arm : Arm} (harm : ρ.first ≤ arm.index) :
    Tracks ρ id (arm.run site) ((arm.rename ρ.name).run site) :=
  (tracks_build (.enter harm arm.regs)).bind fun _ =>
    (tracks_exec (.pure id ()) arm.body arm.temps).bind fun _ => tracks_build .closeIfOpen

/-- A number of turns of the queue. Induction on the turns. -/
theorem tracks_drainUpTo (ρ : Renumbering) (limit : Nat) :
    Tracks ρ id (drainUpTo site limit) (drainUpTo site limit) := by
  induction limit generalizing ρ with
  | zero => exact .pure id ()
  | succ limit ih =>
    -- One arm is carried out, and the rest of the queue follows.
    have hturn (ρ : Renumbering) {arm : Arm} (harm : ρ.first ≤ arm.index) :
        Tracks ρ id (arm.run site >>= fun _ => drainUpTo site limit)
          ((arm.rename ρ.name).run site >>= fun _ => drainUpTo site limit) :=
      (Arm.tracks_run harm).bind fun _ => ih ρ
    have happly {p : Progress} {arm : Arm} {rest : List Arm} (hp : p.pending = arm :: rest) :
        drainUpTo site (limit + 1) p =
          (arm.run site >>= fun _ => drainUpTo site limit) { p with pending := rest } := by
      rw [drainUpTo_of_cons site limit hp, bind_apply]
      rcases arm.run site { p with pending := rest } with ⟨_ | _, _⟩ <;> rfl
    constructor
    · intro p
      cases hp : p.pending with
      | nil =>
        have hsame := drainUpTo_of_empty site (limit + 1) hp
        exact Nat.le_of_eq (congrArg (·.2.builder.issued) hsame).symm
      | cons arm rest =>
        -- For counting, it does not matter where the numbers of the run begin.
        rw [happly hp]
        exact (hturn { ρ with first := 0 } (Nat.zero_le _)).counts { p with pending := rest }
    · intro p q h
      have hpending := h.pending
      cases hp : p.pending with
      | nil =>
        rw [hp] at hpending
        rw [drainUpTo_of_empty site _ hp, drainUpTo_of_empty site _ hpending]
        exact fun _ => ⟨h, rfl⟩
      | cons arm rest =>
        have harms := h.arms
        rw [hp] at hpending harms
        rw [happly hp, happly hpending]
        refine (hturn ρ (harms arm List.mem_cons_self)).follows _ _ ?_
        exact ⟨h.builder, rfl, h.saved, h.trace,
          fun a ha => harms a (List.mem_cons_of_mem arm ha), h.checkpoints⟩

/-- The bound on the turns stays the same. -/
theorem load_rename (f : AssignId → AssignId) (arms : List Arm) :
    load (arms.map (Arm.rename f)) = load arms := by
  induction arms with
  | nil => rfl
  | cons arm rest ih =>
    rw [List.map_cons, load_cons, load_cons, ih]
    exact congrArg (· + load rest) (size_rename f arm.body)

/-- The whole queue. -/
theorem tracks_drain : Tracks ρ id (drain site) (drain site) := by
  refine ⟨fun p => (tracks_drainUpTo ρ (load p.pending)).counts p, fun p q h hle => ?_⟩
  -- The bound is the same, since renaming does not change sizes.
  have hload : load q.pending = load p.pending := by
    rw [h.pending, load_rename]
  obtain ⟨hstate, hresult⟩ := (tracks_drainUpTo ρ (load p.pending)).follows p q h hle
  rw [drain_apply, drain_apply, hload]
  refine ⟨⟨hstate.builder, rfl, hstate.saved, hstate.trace, ?_, hstate.checkpoints⟩, hresult⟩
  exact fun _ harm => absurd harm List.not_mem_nil

end FlowRecovery.Recipe
