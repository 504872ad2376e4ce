import FlowRecovery.Proofs.Operation
import FlowRecovery.Proofs.Rollback

/-!
# `FlowRecovery.Proofs.Closed`: without an open block nothing happens

An operation on the open block is of one of two kinds
(`Build.Op.needsBlock_or_idle`):

- it needs a block, and without one it fails before it has done anything
  (`Build.NeedsBlock`);
- it is idle: it does the same on every builder, which it leaves as it is
  (`Build.Idle`). Folding is idle, and so is loading a constant. If an idle
  operation fails, then because of a type.

Both kinds keep a builder whose block is closed, so a run that goes on
nevertheless keeps it, too, whatever it does next. A branch on a literal
goes on with its arm and gets no further. A branch on anything else fails
before it has queued its arms. Only going back to a checkpoint and moving
the address of new blocks are left out, since they need no block.
-/

set_option autoImplicit false

namespace FlowRecovery

namespace Build

variable {α β : Type}

/-- Without an open block the operation fails for just that reason. -/
def NeedsBlock (x : Build α) : Prop :=
  ∀ b : Builder, b.current = none → x b = (.error (.violation .alreadyTerminated), b)

/-- The operation does the same on every builder, which it leaves as it is.
If it fails, then a type is wrong. -/
def Idle (x : Build α) : Prop :=
  ∃ result, (∀ b, x b = (result, b)) ∧
    ∀ e, result = .error e → ∃ op fault, e = .violation (.illTyped op fault)

/-- To return a value needs no block. -/
theorem Idle.pure (a : α) : Idle (Pure.pure a : Build α) :=
  ⟨.ok a, fun _ => rfl, fun _ h => by cases h⟩

/-- Nor does a type error. -/
theorem Idle.illTyped (op : String) (fault : TypeFault) :
    Idle (violate (.illTyped op fault) : Build α) := by
  refine ⟨_, fun _ => rfl, fun e h => ?_⟩
  cases h
  exact ⟨op, fault, rfl⟩

/-- What starts by asking for the open block fails at once if there is
none. -/
theorem NeedsBlock.openBlock_bind {f : OpenBlock → Build α} : NeedsBlock (openBlock >>= f) :=
  fun _ hb => openBlock_bind_of_closed hb

/-- If the first part fails for want of a block, so does the whole. -/
theorem NeedsBlock.bind {x : Build α} (hx : NeedsBlock x) (f : α → Build β) :
    NeedsBlock (x >>= f) := by
  intro b hb
  rw [bind_run, hx b hb]
  rfl

/-- What comes first decides. Only if it is idle and succeeds does it
matter what follows. -/
theorem needsBlock_or_idle_bind {x : Build α} {f : α → Build β} (hx : NeedsBlock x ∨ Idle x)
    (hf : ∀ a, NeedsBlock (f a) ∨ Idle (f a)) : NeedsBlock (x >>= f) ∨ Idle (x >>= f) := by
  rcases hx with hx | ⟨result, hx, herror⟩
  · exact Or.inl (hx.bind f)
  -- The first part is idle, so its result is the same for every builder.
  cases result with
  | error e =>
    refine Or.inr ⟨.error e, fun b => ?_, fun e' h => ?_⟩
    · rw [bind_run, hx b]
      rfl
    · cases h
      exact herror e rfl
  | ok a =>
    rcases hf a with hfa | ⟨result, hfa, herror⟩
    · refine Or.inl fun b hb => ?_
      rw [bind_apply_of_ok (hx b), hfa b hb]
    · refine Or.inr ⟨result, fun b => ?_, herror⟩
      rw [bind_apply_of_ok (hx b), hfa b]

/-- An application is checked and folded without a block. Only if it is
neither refused nor folded does it need one, for its name. -/
theorem needsBlock_or_idle_evaluateApp (app : App) :
    NeedsBlock (evaluateApp app) ∨ Idle (evaluateApp app) := by
  unfold evaluateApp
  cases hty : app.resultType with
  | error v =>
    obtain ⟨fault, rfl⟩ := App.resultType_eq_error hty
    exact Or.inr (.illTyped _ fault)
  | ok ty =>
    cases app.fold with
    | some v => exact Or.inr (.pure v)
    | none => exact Or.inl .openBlock_bind

/-- Evaluation is idle until it comes to the first application that needs a
name. Induction on the expression. -/
theorem needsBlock_or_idle_evaluate (e : Expr Value) :
    NeedsBlock (evaluate e) ∨ Idle (evaluate e) := by
  induction e with
  | leaf v => exact Or.inr (.pure v)
  | unary op arg ih =>
    exact needsBlock_or_idle_bind ih fun _ => needsBlock_or_idle_evaluateApp _
  | ext op arg width ih =>
    exact needsBlock_or_idle_bind ih fun _ => needsBlock_or_idle_evaluateApp _
  | binary op left right ihl ihr =>
    exact needsBlock_or_idle_bind ihl fun _ => needsBlock_or_idle_bind ihr fun _ =>
      needsBlock_or_idle_evaluateApp _
  | select cond onTrue onFalse ihc iht ihf =>
    exact needsBlock_or_idle_bind ihc fun _ => needsBlock_or_idle_bind iht fun _ =>
      needsBlock_or_idle_bind ihf fun _ => needsBlock_or_idle_evaluateApp _

/-- The type of an address is checked without a block. -/
theorem idle_checkAddress (m : Machine) (op : String) (addr : Value) :
    Idle (checkAddress m op addr) := by
  unfold checkAddress
  split
  · exact .pure ()
  · exact .illTyped op _

/-- A load is idle if it is refused or a constant of the image. -/
theorem needsBlock_or_idle_load (m : Machine) (img : Image) (addr : Value) (bytes : Nat) :
    NeedsBlock (load m img addr bytes) ∨ Idle (load m img addr bytes) := by
  refine needsBlock_or_idle_bind (Or.inr (idle_checkAddress m _ addr)) fun _ => ?_
  split
  · split
    · exact Or.inr (.pure _)
    · exact Or.inl .openBlock_bind
  · exact Or.inr (.illTyped _ _)

/-- A store is idle only if it is refused. -/
theorem needsBlock_or_idle_store (m : Machine) (addr value : Value) :
    NeedsBlock (store m addr value) ∨ Idle (store m addr value) := by
  refine needsBlock_or_idle_bind (Or.inr (idle_checkAddress m _ addr)) fun _ => ?_
  split
  · exact Or.inr (.illTyped _ _)
  · exact Or.inl .openBlock_bind

/-- Every operation on the open block is of one of the two kinds. -/
theorem Op.needsBlock_or_idle {op : Op} (h : op.StaysPut) : NeedsBlock op.run ∨ Idle op.run := by
  -- The value that an operation returns is forgotten.
  have hforget {x : Build Value} (hx : NeedsBlock x ∨ Idle x) :
      NeedsBlock (x >>= fun _ => pure ()) ∨ Idle (x >>= fun _ => pure ()) :=
    needsBlock_or_idle_bind hx fun _ => Or.inr (.pure ())
  cases op with
  | getRegister r => exact hforget (Or.inl .openBlock_bind)
  | setRegister m r v => exact Or.inl .openBlock_bind
  | setIp m addr => exact Or.inl .openBlock_bind
  | emit s => exact Or.inl .openBlock_bind
  | evaluate e => exact hforget (needsBlock_or_idle_evaluate e)
  | evaluateApp app => exact hforget (needsBlock_or_idle_evaluateApp app)
  | evaluatePrim p => exact hforget (Or.inl .openBlock_bind)
  | load m img addr bytes => exact hforget (needsBlock_or_idle_load m img addr bytes)
  | store m addr value => exact needsBlock_or_idle_store m addr value
  | moveTo addr => exact h.elim

/-- There has to be a block to be closed. -/
theorem needsBlock_close (exit : RegFile → Exit) : NeedsBlock (close exit) := .openBlock_bind

/-- There has to be a block to be split. -/
theorem needsBlock_split (cond : Value) : NeedsBlock (split cond) := .openBlock_bind

/-- Either kind keeps a builder whose block is closed. -/
theorem snd_of_closed {x : Build α} (hx : NeedsBlock x ∨ Idle x) {b : Builder}
    (hb : b.current = none) : (x b).2 = b := by
  rcases hx with hx | ⟨result, hx, -⟩
  · rw [hx b hb]
  · rw [hx b]

end Build

namespace Recipe

variable {site : Site} {temps : Temps}

/-- The step neither goes back nor moves the address of new blocks. -/
def Step.StaysPut : Step → Prop
  | .restore _ | .moveTo _ => False
  | _ => True

/-- The second state is the first one, but for checkpoints and the trace:
the same builder, which it has been all the time, and the same arms. -/
structure Progress.Rests (p q : Progress) : Prop where
  builder : q.builder = p.builder
  pending : q.pending = p.pending
  trace : ∃ events, q.trace = events ++ p.trace ∧ ∀ event ∈ events, event.after = p.builder

section

variable {p : Progress} (hclosed : p.builder.current = none)

include hclosed

/-- An operation of either kind leaves a run at rest where it is. -/
theorem build_of_closed {α : Type} {x : Build α} (hx : Build.NeedsBlock x ∨ Build.Idle x)
    {q : Progress} (hq : q.builder = p.builder) : (build x q).2 = q := by
  rw [build_apply, Build.snd_of_closed hx (hq ▸ hclosed)]

/-- In terms of the invariant: the state stays at rest. -/
theorem rests_build {α : Type} {x : Build α} (hx : Build.NeedsBlock x ∨ Build.Idle x) :
    Preserves p.Rests (build x) := by
  intro q hq
  rw [build_of_closed hclosed hx hq.builder]
  exact hq

/-- So does every step but going back and moving on. Steps are made of
operations (`Step.preserves_of_ops`), and closing is one that needs a
block. -/
theorem Step.rests_run {s : Step} (hs : s.StaysPut) : Preserves p.Rests (s.run site temps) := by
  have hop (op : Build.Op) (hop : op.Allowed (fun _ => True) fun _ => True) :
      Preserves p.Rests (build op.run) := rests_build hclosed (Build.Op.needsBlock_or_idle hop.put)
  cases s with
  | close c =>
    have hclose (exit : RegFile → Exit) (_ : c.Gives exit) :
        Preserves p.Rests (build (Build.close exit)) :=
      rests_build hclosed (Or.inl (Build.needsBlock_close exit))
    exact (Closing.preserves_of_ops hop hclose).bind fun _ => .pure _
  | save name => exact fun q hq => ⟨hq.builder, hq.pending, hq.trace⟩
  | restore name => exact hs.elim
  | moveTo addr => exact hs.elim
  | bind | load | prim | set | setIp | advance | store | emit | arch | fail | look =>
    exact Step.preserves_of_ops hop (fun _ _ => trivial) (fun _ _ => trivial) trivial trivial

/-- A branch fails before it has queued its arms. -/
theorem queueArms_of_closed (v : Value) (onTrue onFalse : Recipe) (temps : Temps) {q : Progress}
    (hq : q.builder = p.builder) :
    queueArms v onTrue onFalse temps q = (.error (.violation .alreadyTerminated), q) := by
  have hsplit := Build.needsBlock_split v q.builder (hq ▸ hclosed)
  rw [queueArms, bind_run, build_apply, hsplit]
  rfl

/-- A recipe leaves a state at rest, whatever its branches do. -/
theorem rests_exec (settle : RunM Unit) {r : Recipe} (hr : r.AllSteps Step.StaysPut) :
    Preserves p.Rests (exec site settle r temps) := by
  refine exec_preserves_of_allSteps (fun q step result hq => ?_)
    (fun s _ hs => Step.rests_run hclosed hs)
    (fun e _ => preserves_evalTerm (W := fun _ => True) (E := fun _ => True)
      (fun op hop => rests_build hclosed (Build.Op.needsBlock_or_idle hop.put)) e)
    (fun v q hq => ?_) (fun v onTrue onFalse temps _ _ q hq => ?_) hr temps
  · -- The entry in the trace shows the builder that has been there all the time.
    obtain ⟨events, htrace, hafter⟩ := hq.trace
    exact ⟨hq.builder, hq.pending, _ :: events, congrArg _ htrace,
      List.forall_mem_cons.2 ⟨hq.builder, hafter⟩⟩
  · rw [build_apply]
    unfold Build.checkCondition
    split <;> exact hq
  · -- There is no block to split, so the arms are never settled.
    rw [bind_run, queueArms_of_closed hclosed v onTrue onFalse temps hq.builder]
    exact hq

/-- Whatever is done, and however it ends, the state rests. -/
theorem rests_operate (level : Level) {ops : List Operation}
    (hops : ∀ op ∈ ops, op.recipe.AllSteps Step.StaysPut) : p.Rests (operate level ops p) := by
  refine Action.runAll_preserves (fun a ha => ?_)
    ⟨rfl, rfl, [], rfl, fun _ h => absurd h List.not_mem_nil⟩
  obtain ⟨op, hop, rfl⟩ := List.mem_map.1 ha
  exact rests_exec hclosed _ (hops op hop)

/-- Evaluating a term changes nothing at all, not even the trace. -/
theorem evalTerm_of_closed (e : Term) : (evalTerm site temps e p).2 = p := by
  refine preserves_evalTerm (I := (· = p)) (W := fun _ => True) (E := fun _ => True)
    (fun op hop => ?_) e p rfl
  rintro _ rfl
  exact build_of_closed hclosed (Build.Op.needsBlock_or_idle hop.put) rfl

/-- A branch that has evaluated its condition goes on as the condition
says. -/
theorem branch_of_closed {settle : RunM Unit} {cond : Term} {v : Value} {onTrue onFalse : Recipe}
    (hcond : (evalTerm site temps cond p).1 = .ok v) :
    (v.ty ≠ .bool → (exec site settle (.branch cond onTrue onFalse .done) temps p).1 =
      .error (.violation (.illTyped "branch" (.conditionType v.ty)))) ∧
    (∀ c, v = .bool c → (exec site settle (.branch cond onTrue onFalse .done) temps p).1 =
      (exec site settle (if c then onTrue else onFalse) temps p).1) ∧
    (v.ty = .bool → v.isLiteral = false →
      (exec site settle (.branch cond onTrue onFalse .done) temps p).1 =
        .error (.violation .alreadyTerminated)) := by
  have heval : evalTerm site temps cond p = (.ok v, p) :=
    Prod.ext hcond (evalTerm_of_closed hclosed cond)
  -- That the branch is recorded makes no difference to its result.
  have hrecorded (x : RunM Unit) :
      ((recorded none (fun _ => .nothing) x >>= fun _ => pure ()) p).1 = (x p).1 := by
    rw [bind_run, recorded_apply]
    cases (x p).1 <;> rfl
  have hcheck (hty : v.ty = .bool) : build (Build.checkCondition v) p = (.ok (), p) := by
    rw [build_apply, Build.checkCondition, if_pos hty]
    rfl
  simp only [exec, hrecorded, bind_apply_of_ok heval]
  refine ⟨fun hty => ?_, fun c hc => ?_, fun hty hlit => ?_⟩
  · -- The condition is no truth value, and the branch is refused.
    rw [bind_run, build_apply, Build.checkCondition, if_neg hty]
    rfl
  · -- A literal goes on with its arm.
    subst hc
    rw [bind_apply_of_ok (hcheck rfl)]
    cases c <;> rfl
  · have hqueue := queueArms_of_closed hclosed v onTrue onFalse temps rfl
    rw [bind_apply_of_ok (hcheck hty)]
    cases v with
    | bool | bv => cases hlit
    | reloc | initial | returnAddr | clobbered | assign =>
      simp only [bind_run, hqueue]
      rfl

end

/-- Once its block is closed, a builder stays as it is: going on leaves the
blocks, the numbers, the address of new blocks and the waiting arms alone,
and no block is opened. Every operation that would have done something
fails because there is no block, unless a type is wrong before it gets
that far. -/
theorem closed_inert {p : Progress} (hclosed : p.builder.current = none) :
    (∀ level ops, (∀ op ∈ ops, op.recipe.AllSteps Step.StaysPut) →
      p.Rests (operate level ops p)) ∧
    (∀ op : Build.Op, op.StaysPut → Build.NeedsBlock op.run ∨ Build.Idle op.run) ∧
    (∀ exit, Build.NeedsBlock (Build.close exit)) ∧
    ∀ (level : Level) (site : Site) (temps : Temps) (cond : Term) (v : Value)
      (onTrue onFalse : Recipe), (evalTerm site temps cond p).1 = .ok v →
      let result := fun r => (exec site (level.settle site) r temps p).1
      (v.ty ≠ .bool → result (.branch cond onTrue onFalse .done) =
        .error (.violation (.illTyped "branch" (.conditionType v.ty)))) ∧
      (∀ c, v = .bool c → result (.branch cond onTrue onFalse .done) =
        result (if c then onTrue else onFalse)) ∧
      (v.ty = .bool → v.isLiteral = false → result (.branch cond onTrue onFalse .done) =
        .error (.violation .alreadyTerminated)) :=
  ⟨fun level _ hops => rests_operate hclosed level hops,
    fun _ hput => Build.Op.needsBlock_or_idle hput, Build.needsBlock_close,
    fun _ _ _ _ _ _ _ hcond => branch_of_closed hclosed hcond⟩

/-- A recipe at the place that the samples use. -/
def onFlags (r : Recipe) : Operation where
  site := flagsSite
  recipe := r
  temps := []

/-- The first block is closed, and nothing waits. -/
def afterClosing : Progress :=
  operate .outermost [onFlags (.step (.close .fetch) .done)]
    { builder := .start {} 0x1000 (.symbolic flagsMachine) }

/-- A branch on a literal around one on a flag, a store of a boolean, a
write, a sum of constants, and another end of the block. -/
def afterwards : List Operation :=
  let flag : Term := .leaf (.value (.initial 1 .bool))
  let one : Term := .leaf (.value (.bv 64 1))
  let inner : Recipe := .step (.bind "two" (.binary .add one one))
    (.branch flag (.step .advance .done) .done .done)
  [onFlags (.branch (.leaf (.value (.bool true))) inner .done .done),
    onFlags (.step (.store one (.leaf (.value (.bool true)))) .done),
    onFlags (.step (.set 0 one) .done),
    onFlags (.step (.bind "two" (.binary .add one one)) .done),
    onFlags (.step (.close .fetch) .done)]

/-- Nothing of what is tried after the end has an effect. Three attempts
fail for want of a block, a store of a truth value fails because of its
type, and a sum of constants succeeds. -/
theorem closed_inert_afterwards :
    afterClosing.builder.current = none ∧ (∀ op ∈ afterwards, op.recipe.AllSteps Step.StaysPut) ∧
    (Action.runAll (afterwards.map (.perform .outermost)) afterClosing).1 =
      [.error (.violation .alreadyTerminated),
        .error (.violation (.illTyped "write_mem" .booleanStore)),
        .error (.violation .alreadyTerminated), .ok (),
        .error (.violation .alreadyTerminated)] ∧
    afterClosing.Rests (operate .outermost afterwards afterClosing) := by
  have hclosed : afterClosing.builder.current = none := by decide +kernel
  have hops : ∀ op ∈ afterwards, op.recipe.AllSteps Step.StaysPut := by
    simp [afterwards, onFlags, AllSteps, Step.StaysPut]
  exact ⟨hclosed, hops, by decide +kernel, (closed_inert hclosed).1 .outermost afterwards hops⟩

end Recipe

end FlowRecovery
