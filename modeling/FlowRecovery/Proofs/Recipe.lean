import FlowRecovery.Proofs.Builder

/-!
# `FlowRecovery.Proofs.Recipe`: what carrying out a recipe does

The run of a recipe, opened up in the same way as the operations it is
made of. Evaluating a term first replaces its leaves by the values they
hold (`Leaf.held?`), which changes nothing, and then evaluates, so a term
acts on the builder alone (`Evaluates`). The lemmas
`exec_step_eq_ok_iff` and `exec_branch_eq_ok` say what a recipe that
succeeds has done, one step at a time.

`exec_grows` and its companions hold for failing runs too: as long as no
step returns to a checkpoint, blocks and numbers are only added.
-/

set_option autoImplicit false

namespace FlowRecovery.Recipe

variable {site : Site} {temps : Temps} {p p' : Progress}

/-! ### Single parts that succeed -/

/-- An operation of construction acts on the builder of a run and on
nothing else. -/
theorem build_apply {α : Type} (x : Build α) (p : Progress) :
    build x p = ((x p.builder).1, { p with builder := (x p.builder).2 }) := rfl

/-- So it succeeds in a run exactly if it does on the builder. -/
theorem build_eq_ok_iff {α : Type} {x : Build α} {a : α} :
    build x p = (.ok a, p') ↔ ∃ b, x p.builder = (.ok a, b) ∧ p' = { p with builder := b } := by
  rw [build_apply]
  cases x p.builder with
  | mk result b =>
    constructor
    · intro h
      cases h
      exact ⟨b, rfl, rfl⟩
    · rintro ⟨_, hx, hp⟩
      cases hx
      rw [hp]

/-- An operation of construction first, and then the rest of the run. -/
theorem build_bind_eq_ok_iff {α β : Type} {x : Build α} {f : α → RunM β} {c : β} :
    (build x >>= f) p = (.ok c, p') ↔
      ∃ a b, x p.builder = (.ok a, b) ∧ f a { p with builder := b } = (.ok c, p') := by
  simp only [bind_eq_ok_iff, build_eq_ok_iff]
  constructor
  · rintro ⟨a, _, ⟨b, hx, hq⟩, h⟩
    subst hq
    exact ⟨a, b, hx, h⟩
  · rintro ⟨a, b, hx, h⟩
    exact ⟨a, _, ⟨b, hx, rfl⟩, h⟩

/-- A part that is recorded does the same and leaves an entry in the trace.
-/
theorem recorded_apply {α : Type} (step : Option Step) (outcome : α → Outcome) (x : RunM α)
    (p : Progress) :
    recorded step outcome x p =
      ((x p).1, { (x p).2 with
        trace := ⟨step, (x p).1.map outcome, (x p).2.builder⟩ :: (x p).2.trace }) := rfl

/-- A recorded part succeeds exactly if the part does; the entry shows its
outcome. -/
theorem recorded_eq_ok_iff {α : Type} {step : Option Step} {outcome : α → Outcome} {x : RunM α}
    {a : α} :
    recorded step outcome x p = (.ok a, p') ↔
      ∃ q, x p = (.ok a, q) ∧
        p' = { q with trace := ⟨step, .ok (outcome a), q.builder⟩ :: q.trace } := by
  rw [recorded_apply]
  cases x p with
  | mk result q =>
    constructor
    · intro h
      cases h
      exact ⟨q, rfl, rfl⟩
    · rintro ⟨_, hx, hp⟩
      cases hx
      rw [hp]
      rfl

/-! ### Terms -/

/-- The value that a leaf stands for in a state of construction. -/
def Leaf.held? (temps : Temps) (b : Builder) : Leaf → Option Value
  | .value v => some v
  | .reg r => b.regs?.bind (·.get? r)
  | .temp name => temps.lookup name
  | .undecodable _ => none

/-- A leaf is resolved exactly if it holds a value, and that changes
nothing. -/
theorem Leaf.resolve_eq_ok_iff {l : Leaf} {v : Value} :
    l.resolve site temps p = (.ok v, p') ↔ l.held? temps p.builder = some v ∧ p' = p := by
  cases l with
  | value u =>
    rw [Leaf.resolve, pure_eq_ok_iff, Leaf.held?, Option.some.injEq, @eq_comm _ u]
  | reg r =>
    -- A register is read from the open block, so there has to be one.
    simp only [Leaf.resolve, build_eq_ok_iff, Build.getRegister_eq_ok_iff, Leaf.held?,
      Builder.regs?, Option.bind_eq_some_iff, Option.map_eq_some_iff]
    constructor
    · rintro ⟨_, ⟨blk, hblk, hr, hb⟩, hp⟩
      subst hb
      exact ⟨⟨blk.regs, ⟨blk, hblk, rfl⟩, hr⟩, hp⟩
    · rintro ⟨⟨_, ⟨blk, hblk, hregs⟩, hr⟩, hp⟩
      subst hregs
      exact ⟨p.builder, ⟨blk, hblk, hr, rfl⟩, hp⟩
  | temp name =>
    -- A temporary has to be bound.
    simp only [Leaf.resolve, Leaf.held?]
    cases temps.lookup name with
    | none =>
      simp only [reduceCtorEq, false_and, iff_false]
      intro h
      cases h
    | some u => simp [pure_eq_ok_iff, @eq_comm _ u]
  | undecodable reason =>
    simp only [Leaf.held?, reduceCtorEq, false_and, iff_false]
    intro h
    cases h

/-- Replacing the leaves leaves the state as it is. -/
theorem resolve_eq_ok_iff {e : Term} {e' : Expr Value} :
    e.resolve (Leaf.resolve site temps) p = (.ok e', p') ↔
      e.resolve (Leaf.held? temps p.builder) = some e' ∧ p' = p := by
  induction e generalizing e' p' with
  | leaf l =>
    simp only [Expr.resolve, map_eq_ok_iff, Leaf.resolve_eq_ok_iff, Option.map_eq_map,
      Option.map_eq_some_iff]
    grind
  | unary op arg ih =>
    simp only [Expr.resolve, map_eq_ok_iff, ih, Option.map_eq_map, Option.map_eq_some_iff]
    grind
  | ext op arg width ih =>
    simp only [Expr.resolve, map_eq_ok_iff, ih, Option.map_eq_map, Option.map_eq_some_iff]
    grind
  | binary op left right ihl ihr =>
    simp only [Expr.resolve, bind_eq_ok_iff_of_reads fun _ _ => ihl,
      bind_eq_ok_iff_of_reads fun _ _ => ihr, pure_eq_ok_iff, Option.bind_eq_bind,
      Option.bind_eq_some_iff, Option.pure_def, Option.some.injEq]
    grind
  | select cond onTrue onFalse ihc iht ihf =>
    simp only [Expr.resolve, bind_eq_ok_iff_of_reads fun _ _ => ihc,
      bind_eq_ok_iff_of_reads fun _ _ => iht, bind_eq_ok_iff_of_reads fun _ _ => ihf,
      pure_eq_ok_iff, Option.bind_eq_bind, Option.bind_eq_some_iff, Option.pure_def,
      Option.some.injEq]
    grind

/-- The term comes to this value and leaves this state. -/
def Evaluates (temps : Temps) (e : Term) (b : Builder) (v : Value) (b' : Builder) : Prop :=
  ∃ e', e.resolve (Leaf.held? temps b) = some e' ∧ Build.evaluate e' b = (.ok v, b')

/-- A term is evaluated on the builder. The rest of the run does not matter
to it. -/
theorem evalTerm_eq_ok_iff {e : Term} {v : Value} :
    evalTerm site temps e p = (.ok v, p') ↔
      ∃ b, Evaluates temps e p.builder v b ∧ p' = { p with builder := b } := by
  simp only [evalTerm, bind_eq_ok_iff, resolve_eq_ok_iff, build_eq_ok_iff, Evaluates]
  grind

/-- A term first, and then the rest of the run. -/
theorem evalTerm_bind_eq_ok_iff {α : Type} {e : Term} {f : Value → RunM α} {a : α} :
    (evalTerm site temps e >>= f) p = (.ok a, p') ↔
      ∃ v b, Evaluates temps e p.builder v b ∧ f v { p with builder := b } = (.ok a, p') := by
  simp only [bind_eq_ok_iff, evalTerm_eq_ok_iff]
  constructor
  · rintro ⟨v, _, ⟨b, hv, hq⟩, h⟩
    subst hq
    exact ⟨v, b, hv, h⟩
  · rintro ⟨v, b, hv, h⟩
    exact ⟨v, _, ⟨b, hv, rfl⟩, h⟩

/-- The terms come to these values, one after the other. -/
def EvaluatesAll (temps : Temps) : List Term → Builder → List Value → Builder → Prop
  | [], b, vs, b' => vs = [] ∧ b' = b
  | e :: rest, b, vs, b' =>
    ∃ v b₁ vs', Evaluates temps e b v b₁ ∧ EvaluatesAll temps rest b₁ vs' b' ∧ vs = v :: vs'

/-- The same for a list of terms. Induction on the list, because each term
starts from the builder that the one before it left. -/
theorem evalTerms_eq_ok_iff {es : List Term} {vs : List Value} :
    evalTerms site temps es p = (.ok vs, p') ↔
      ∃ b, EvaluatesAll temps es p.builder vs b ∧ p' = { p with builder := b } := by
  induction es generalizing p vs with
  | nil =>
    simp only [evalTerms, pure_eq_ok_iff, EvaluatesAll]
    constructor
    · rintro ⟨hvs, hp⟩
      exact ⟨p.builder, ⟨hvs, rfl⟩, hp⟩
    · rintro ⟨_, ⟨hvs, hb⟩, hp⟩
      subst hb
      exact ⟨hvs, hp⟩
  | cons e rest ih =>
    rw [evalTerms, evalTerm_bind_eq_ok_iff]
    simp only [bind_eq_ok_iff, pure_eq_ok_iff, EvaluatesAll]
    constructor
    · rintro ⟨v, b, hv, vs', q, hrest, hvs, hp⟩
      subst hp
      obtain ⟨b', hrest, hp⟩ := ih.1 hrest
      exact ⟨b', ⟨v, b, vs', hv, hrest, hvs⟩, hp⟩
    · rintro ⟨b', ⟨v, b, vs', hv, hrest, hvs⟩, hp⟩
      exact ⟨v, b, hv, vs', p', ih.2 ⟨b', hrest, hp⟩, hvs, rfl⟩

/-- A list of terms first, and then the rest of the run. -/
theorem evalTerms_bind_eq_ok_iff {α : Type} {es : List Term} {f : List Value → RunM α} {a : α} :
    (evalTerms site temps es >>= f) p = (.ok a, p') ↔
      ∃ vs b, EvaluatesAll temps es p.builder vs b ∧
        f vs { p with builder := b } = (.ok a, p') := by
  simp only [bind_eq_ok_iff, evalTerms_eq_ok_iff]
  constructor
  · rintro ⟨vs, _, ⟨b, hvs, hq⟩, h⟩
    subst hq
    exact ⟨vs, b, hvs, h⟩
  · rintro ⟨vs, b, hvs, h⟩
    exact ⟨vs, _, ⟨b, hvs, rfl⟩, h⟩

/-! ### Steps -/

/-- Closing the block: the exit that is made of its final registers. -/
inductive Closing.Builds (temps : Temps) :
    Closing → Builder → (RegFile → Exit) → Builder → Prop
  | fetch {b : Builder} : Builds temps .fetch b .fetch b
  | branch {cond : Term} {t f : BlockIndex} {v : Value} {b b' : Builder}
      (h : Evaluates temps cond b v b') :
      Builds temps (.branch cond t f) b (fun _ => .branch v t f) b'
  | failed {addr : Word} {reason : String} {b : Builder} :
      Builds temps (.failed addr reason) b (.failed · addr reason) b
  | arch {name : String} {args : List Term} {vs : List Value} {b b' : Builder}
      (h : EvaluatesAll temps args b vs b') :
      Builds temps (.arch name args) b (.arch · name vs) b'

/-- What a step that succeeds does to the block under construction, and
the temporaries after it. Returning to a checkpoint is left out. -/
inductive Step.Builds (site : Site) (temps : Temps) : Step → Builder → Temps → Builder → Prop
  | bind {name : String} {e : Term} {v : Value} {b b' : Builder}
      (h : Evaluates temps e b v b') : Builds site temps (.bind name e) b ((name, v) :: temps) b'
  | load {name : String} {addr : Term} {bytes : Nat} {a v : Value} {b b₁ b' : Builder}
      (ha : Evaluates temps addr b a b₁)
      (h : Build.load site.machine site.image a bytes b₁ = (.ok v, b')) :
      Builds site temps (.load name addr bytes) b ((name, v) :: temps) b'
  | prim {name primitive : String} {args : List Term} {ty : Ty} {isPure : Bool} {vs : List Value}
      {v : Value} {b b₁ b' : Builder} (hargs : EvaluatesAll temps args b vs b₁)
      (h : Build.evaluatePrim { name := primitive, args := vs, ty, isPure } b₁ = (.ok v, b')) :
      Builds site temps (.prim name primitive args ty isPure) b ((name, v) :: temps) b'
  | set {r : Reg} {e : Term} {v : Value} {b b₁ b' : Builder} (hv : Evaluates temps e b v b₁)
      (h : Build.setRegister site.machine r v b₁ = (.ok (), b')) :
      Builds site temps (.set r e) b temps b'
  | setIp {addr : Word} {b b' : Builder} (h : Build.setIp site.machine addr b = (.ok (), b')) :
      Builds site temps (.setIp addr) b temps b'
  | advance {b b' : Builder} (h : Build.setIp site.machine site.next b = (.ok (), b')) :
      Builds site temps .advance b temps b'
  | store {addr value : Term} {a v : Value} {b b₁ b₂ b' : Builder}
      (ha : Evaluates temps addr b a b₁) (hv : Evaluates temps value b₁ v b₂)
      (h : Build.store site.machine a v b₂ = (.ok (), b')) :
      Builds site temps (.store addr value) b temps b'
  | emit {s : Stmt} {b b' : Builder} (h : Build.emit s b = (.ok (), b')) :
      Builds site temps (.emit s) b temps b'
  | arch {name : String} {args : List Term} {vs : List Value} {b b₁ b' : Builder}
      (hargs : EvaluatesAll temps args b vs b₁)
      (h : Build.emit (.arch name vs) b₁ = (.ok (), b')) :
      Builds site temps (.arch name args) b temps b'
  | close {c : Closing} {exit : RegFile → Exit} {i : BlockIndex} {b b₁ b' : Builder}
      (hc : c.Builds temps b exit b₁) (h : Build.close exit b₁ = (.ok i, b')) :
      Builds site temps (.close c) b temps b'
  | moveTo {addr : Word} {b : Builder} :
      Builds site temps (.moveTo addr) b temps { b with instrAddr := addr }
  | save {name : String} {b : Builder} : Builds site temps (.save name) b temps b
  | look {b : Builder} : Builds site temps .look b temps b

/-- A closing step evaluates what its exit mentions, and then closes the
block. -/
theorem Closing.builds_of_run {c : Closing} {i : BlockIndex}
    (h : c.run site temps p = (.ok i, p')) :
    ∃ exit b₁ b', c.Builds temps p.builder exit b₁ ∧ Build.close exit b₁ = (.ok i, b') ∧
      p' = { p with builder := b' } := by
  cases c with
  | fetch =>
    rw [Closing.run, build_eq_ok_iff] at h
    obtain ⟨b', hclose, hp⟩ := h
    exact ⟨_, _, b', .fetch, hclose, hp⟩
  | branch cond t f =>
    obtain ⟨v, b₁, hv, h⟩ := evalTerm_bind_eq_ok_iff.1 h
    obtain ⟨b', hclose, hp⟩ := build_eq_ok_iff.1 h
    exact ⟨_, b₁, b', .branch hv, hclose, hp⟩
  | failed addr reason =>
    rw [Closing.run, build_eq_ok_iff] at h
    obtain ⟨b', hclose, hp⟩ := h
    exact ⟨_, _, b', .failed, hclose, hp⟩
  | arch name args =>
    obtain ⟨vs, b₁, hvs, h⟩ := evalTerms_bind_eq_ok_iff.1 h
    obtain ⟨b', hclose, hp⟩ := build_eq_ok_iff.1 h
    exact ⟨_, b₁, b', .arch hvs, hclose, hp⟩

/-- A step that returns to no checkpoint acts on the builder as
`Step.Builds` says. -/
theorem Step.builds_of_run {s : Step} {temps' : Temps} {out : Outcome}
    (hs : ∀ name, s ≠ .restore name) (h : s.run site temps p = (.ok (temps', out), p')) :
    s.Builds site temps p.builder temps' p'.builder := by
  -- The shape of `Step.run`, one case for each kind of step.
  cases s with
  | bind name e =>
    obtain ⟨v, b, hv, h⟩ := evalTerm_bind_eq_ok_iff.1 h
    cases h
    exact .bind hv
  | load name addr bytes =>
    obtain ⟨a, b, ha, h⟩ := evalTerm_bind_eq_ok_iff.1 h
    obtain ⟨v, b', hv, h⟩ := build_bind_eq_ok_iff.1 h
    cases h
    exact .load ha hv
  | prim name primitive args ty isPure =>
    obtain ⟨vs, b, hvs, h⟩ := evalTerms_bind_eq_ok_iff.1 h
    obtain ⟨v, b', hv, h⟩ := build_bind_eq_ok_iff.1 h
    cases h
    exact .prim hvs hv
  | set r e =>
    obtain ⟨v, b, hv, h⟩ := evalTerm_bind_eq_ok_iff.1 h
    obtain ⟨_, b', hset, h⟩ := build_bind_eq_ok_iff.1 h
    cases h
    exact .set hv hset
  | setIp addr =>
    obtain ⟨_, b', hset, h⟩ := build_bind_eq_ok_iff.1 h
    cases h
    exact .setIp hset
  | advance =>
    obtain ⟨_, b', hset, h⟩ := build_bind_eq_ok_iff.1 h
    cases h
    exact .advance hset
  | store addr value =>
    obtain ⟨a, b, ha, h⟩ := evalTerm_bind_eq_ok_iff.1 h
    obtain ⟨v, b', hv, h⟩ := evalTerm_bind_eq_ok_iff.1 h
    obtain ⟨_, b'', hstore, h⟩ := build_bind_eq_ok_iff.1 h
    cases h
    exact .store ha hv hstore
  | emit s =>
    obtain ⟨_, b', hemit, h⟩ := build_bind_eq_ok_iff.1 h
    cases h
    exact .emit hemit
  | arch name args =>
    obtain ⟨vs, b, hvs, h⟩ := evalTerms_bind_eq_ok_iff.1 h
    obtain ⟨_, b', hemit, h⟩ := build_bind_eq_ok_iff.1 h
    cases h
    exact .arch hvs hemit
  | close c =>
    obtain ⟨i, q, hrun, h⟩ := bind_eq_ok_iff.1 h
    obtain ⟨exit, b₁, b', hc, hclose, rfl⟩ := Closing.builds_of_run hrun
    cases h
    exact .close hc hclose
  | fail reason => cases h
  | moveTo addr =>
    cases h
    exact .moveTo
  | save name =>
    cases h
    exact .save
  | restore name => exact absurd rfl (hs name)
  | look =>
    cases h
    exact .look

/-! ### Recipes -/

/-- A recipe that starts with a step succeeds exactly if the step does, and
then the rest from where the step left off. -/
theorem exec_step_eq_ok_iff {settle : RunM Unit} {s : Step} {rest : Recipe} :
    exec site settle (.step s rest) temps p = (.ok (), p') ↔
      ∃ temps' out q, s.run site temps p = (.ok (temps', out), q) ∧
        exec site settle rest temps' { q with trace := ⟨some s, .ok out, q.builder⟩ :: q.trace } =
          (.ok (), p') := by
  simp only [exec, bind_eq_ok_iff, recorded_eq_ok_iff]
  constructor
  · rintro ⟨⟨temps', out⟩, _, ⟨q, hs, hq⟩, h⟩
    subst hq
    exact ⟨temps', out, q, hs, h⟩
  · rintro ⟨temps', out, q, hs, h⟩
    exact ⟨(temps', out), _, ⟨q, hs, rfl⟩, h⟩

/-- The arms of a split, in the order in which they are queued. -/
def splitArms (t f : BlockIndex) (regs : RegFile) (temps : Temps) (onTrue onFalse : Recipe) :
    List Arm :=
  [{ index := t, regs, temps, body := onTrue }, { index := f, regs, temps, body := onFalse }]

/-- What a branch that succeeds does before the recipe goes on: one arm
on the open block if the condition is a literal, else a split. -/
inductive Takes (site : Site) (settle : RunM Unit) (onTrue onFalse : Recipe) (temps : Temps)
    (p p' : Progress) : Value → Prop
  | arm {taken : Bool}
      (h : exec site settle (if taken then onTrue else onFalse) temps p = (.ok (), p')) :
      Takes site settle onTrue onFalse temps p p' (.bool taken)
  | split {cond : Value} {t f : BlockIndex} {regs : RegFile} {b : Builder}
      (hcond : cond.bool? = none) (hsplit : Build.split cond p.builder = (.ok (t, f, regs), b))
      (h : settle { p with
        builder := b, pending := p.pending ++ splitArms t f regs temps onTrue onFalse } =
          (.ok (), p')) :
      Takes site settle onTrue onFalse temps p p' cond

/-- The arms are queued once the block has been split. -/
theorem queueArms_eq_ok_iff {cond : Value} {onTrue onFalse : Recipe} {u : Unit} :
    queueArms cond onTrue onFalse temps p = (.ok u, p') ↔
      ∃ t f regs b, Build.split cond p.builder = (.ok (t, f, regs), b) ∧
        p' = { p with
          builder := b, pending := p.pending ++ splitArms t f regs temps onTrue onFalse } := by
  rw [queueArms, build_bind_eq_ok_iff]
  constructor
  · rintro ⟨⟨t, f, regs⟩, b, hsplit, h⟩
    exact ⟨t, f, regs, b, hsplit, modify_eq_ok_iff.1 h⟩
  · rintro ⟨t, f, regs, b, hsplit, h⟩
    exact ⟨(t, f, regs), b, hsplit, modify_eq_ok_iff.2 h⟩

/-- A branch that succeeds has had a truth value for its condition, has
taken an arm or has split, and then the recipe has gone on. -/
theorem exec_branch_eq_ok {settle : RunM Unit} {cond : Term} {onTrue onFalse rest : Recipe}
    (h : exec site settle (.branch cond onTrue onFalse rest) temps p = (.ok (), p')) :
    ∃ v b q, Evaluates temps cond p.builder v b ∧ v.ty = .bool ∧
      Takes site settle onTrue onFalse temps { p with builder := b } q v ∧
      exec site settle rest temps { q with trace := ⟨none, .ok .nothing, q.builder⟩ :: q.trace } =
        (.ok (), p') := by
  obtain ⟨_, _, hfirst, hrest⟩ := bind_eq_ok_iff.1 h
  obtain ⟨q, htake, rfl⟩ := recorded_eq_ok_iff.1 hfirst
  obtain ⟨v, b, hv, htake⟩ := evalTerm_bind_eq_ok_iff.1 htake
  obtain ⟨_, b', hcond, htake⟩ := build_bind_eq_ok_iff.1 htake
  obtain ⟨hty, hb⟩ := Build.checkCondition_eq_ok_iff.1 hcond
  rw [hb] at htake
  refine ⟨v, b, q, hv, hty, ?_, hrest⟩
  -- Everything but a literal goes to the queue.
  have hqueue (hliteral : v.bool? = none)
      (h : (queueArms v onTrue onFalse temps >>= fun _ => settle) { p with builder := b } =
        (.ok (), q)) :
      Takes site settle onTrue onFalse temps { p with builder := b } q v := by
    obtain ⟨_, _, hq, hsettle⟩ := bind_eq_ok_iff.1 h
    obtain ⟨t, f, regs, b', hsplit, rfl⟩ := queueArms_eq_ok_iff.1 hq
    exact .split hliteral hsplit hsettle
  cases v with
  | bool c =>
    cases c with
    | true => exact .arm htake
    | false => exact .arm htake
  | bv | reloc | initial | returnAddr | clobbered | assign => exact hqueue rfl htake

/-- An arm is carried out in a block of its own, which is closed at the end
if the recipe has not done so. -/
theorem Arm.run_eq_ok_iff {arm : Arm} :
    arm.run site p = (.ok (), p') ↔
      ∃ q b, exec site (pure ()) arm.body arm.temps
          { p with builder := { p.builder with
            current := some
              { index := arm.index, addr := p.builder.instrAddr, regs := arm.regs } } } =
            (.ok (), q) ∧
        Build.closeIfOpen q.builder = (.ok (), b) ∧ p' = { q with builder := b } := by
  rw [Arm.run, Build.enter, build_bind_eq_ok_iff]
  simp only [bind_eq_ok_iff, build_eq_ok_iff, modify_eq_ok_iff]
  constructor
  · rintro ⟨_, _, hb, _, q, hexec, b, hclose, hp⟩
    subst hb
    exact ⟨q, b, hexec, hclose, hp⟩
  · rintro ⟨q, b, hexec, hclose, hp⟩
    exact ⟨(), _, rfl, (), q, hexec, b, hclose, hp⟩

/-- The builder that a run leaves is all that is kept of it. -/
theorem run_apply (r : Recipe) (site : Site) (b : Builder) :
    r.run site b = ((r.start site b).1, (r.start site b).2.builder) := rfl

/-- The run of a recipe first, and then more construction. -/
theorem run_bind_eq_ok_iff {α : Type} {r : Recipe} {f : Unit → Build α} {b b' : Builder} {a : α} :
    (r.run site >>= f) b = (.ok a, b') ↔
      ∃ q, r.start site b = (.ok (), q) ∧ f () q.builder = (.ok a, b') := by
  rw [bind_run, run_apply]
  cases hq : r.start site b with
  | mk result q =>
    cases result with
    | error e =>
      constructor
      · intro h
        cases h
      · rintro ⟨_, h, _⟩
        cases h
    | ok u =>
      constructor
      · intro h
        exact ⟨q, rfl, h⟩
      · rintro ⟨_, h, hf⟩
        cases h
        exact hf

/-- To prove something of every run that works off a queue: it holds of
the empty queue, and it is handed on by each arm, whether or not the arm
succeeds. -/
theorem drain_induction (site : Site)
    {motive : Progress → Except BuildError Unit × Progress → Prop}
    (empty : ∀ p, p.pending = [] → motive p (.ok (), p))
    (done : ∀ p arm rest p', p.pending = arm :: rest →
      arm.run site { p with pending := rest } = (.ok (), p') →
      motive p' (drain site p') → motive p (drain site p'))
    (failed : ∀ p arm rest e p', p.pending = arm :: rest →
      arm.run site { p with pending := rest } = (.error e, p') →
      motive p (.error e, { p' with pending := [] }))
    (p : Progress) : motive p (drain site p) := by
  -- The sizes of the queued recipes go down with every arm.
  induction h : load p.pending using Nat.strongRecOn generalizing p with
  | _ n ih =>
    cases hp : p.pending with
    | nil =>
      rw [drain_of_empty site hp]
      exact empty p hp
    | cons arm rest =>
      obtain ⟨arms, hleft, hload⟩ := Arm.run_leaves site arm { p with pending := rest }
      rw [drain_of_cons site hp]
      cases hrun : arm.run site { p with pending := rest } with
      | mk result p' =>
        cases result with
        | error e => exact failed p arm rest e p' hp hrun
        | ok u =>
          refine done p arm rest p' hp hrun (ih (load p'.pending) ?_ p' rfl)
          -- The arm is gone, and what it leaves behind is smaller than it was.
          have hpos := size_pos arm.body
          rw [hrun] at hleft
          rw [← h, hp, hleft, load_append, load_cons]
          simp only
          omega

/-! ### Parts that only build -/

/-- The part changes nothing but the builder, and only adds to that. -/
def OnlyBuilds {α : Type} (x : RunM α) : Prop :=
  ∀ p, ∃ b, p.builder.Grows b ∧ (x p).2 = { p with builder := b }

namespace OnlyBuilds

variable {α β : Type}

/-- Nothing changes. -/
theorem pure (a : α) : OnlyBuilds (Pure.pure a : RunM α) := fun p => ⟨p.builder, .refl _, rfl⟩

/-- A failure to decode changes nothing. -/
theorem fail (reason : String) : OnlyBuilds (failDecoding site reason : RunM α) := fun p =>
  ⟨p.builder, .refl _, rfl⟩

/-- An operation that only adds to the builder. -/
theorem build {x : Build α} (hx : x.Grows) : OnlyBuilds (Recipe.build x) := fun p =>
  ⟨_, hx p.builder, rfl⟩

/-- Two parts that only build do so one after the other. -/
theorem bind {x : RunM α} {f : α → RunM β} (hx : OnlyBuilds x) (hf : ∀ a, OnlyBuilds (f a)) :
    OnlyBuilds (x >>= f) := by
  intro p
  obtain ⟨b, hgrows, hp⟩ := hx p
  rw [bind_apply]
  cases hxp : x p with
  | mk result q =>
    rw [hxp] at hp
    cases hp
    cases result with
    | error e => exact ⟨b, hgrows, rfl⟩
    | ok a =>
      obtain ⟨b', hgrows', hq⟩ := hf a { p with builder := b }
      exact ⟨b', hgrows.trans hgrows', hq⟩

/-- What is made of the result does not matter. -/
theorem map {x : RunM α} (f : α → β) (hx : OnlyBuilds x) : OnlyBuilds (f <$> x) := by
  rw [map_eq_pure_bind]
  exact hx.bind fun a => pure (f a)

end OnlyBuilds

/-- A leaf at most reads a register. -/
theorem Leaf.resolve_onlyBuilds (l : Leaf) : OnlyBuilds (l.resolve site temps) := by
  cases l with
  | value v => exact .pure v
  | reg r => exact .build (.getRegister r)
  | undecodable reason => exact .fail reason
  | temp name =>
    simp only [Leaf.resolve]
    split
    · exact .pure _
    · exact .fail _

/-- A term is resolved, and then evaluated on the builder. -/
theorem evalTerm_onlyBuilds (e : Term) : OnlyBuilds (evalTerm site temps e) := by
  have hresolve : OnlyBuilds (e.resolve (Leaf.resolve site temps)) := by
    induction e with
    | leaf l => exact (Leaf.resolve_onlyBuilds l).map _
    | unary op arg ih => exact ih.map _
    | ext op arg width ih => exact ih.map _
    | binary op left right ihl ihr => exact ihl.bind fun _ => ihr.bind fun _ => .pure _
    | select cond onTrue onFalse ihc iht ihf =>
      exact ihc.bind fun _ => iht.bind fun _ => ihf.bind fun _ => .pure _
  exact hresolve.bind fun _ => .build (.evaluate _)

/-- So is a list of terms, one after the other. -/
theorem evalTerms_onlyBuilds (es : List Term) : OnlyBuilds (evalTerms site temps es) := by
  induction es with
  | nil => exact .pure _
  | cons e rest ih => exact (evalTerm_onlyBuilds e).bind fun _ => ih.bind fun _ => .pure _

/-- A closing step evaluates, and then closes the block. -/
theorem Closing.run_onlyBuilds (c : Closing) : OnlyBuilds (c.run site temps) := by
  cases c with
  | fetch => exact .build (.close _)
  | branch cond t f => exact (evalTerm_onlyBuilds cond).bind fun _ => .build (.close _)
  | failed addr reason => exact .build (.close _)
  | arch name args => exact (evalTerms_onlyBuilds args).bind fun _ => .build (.close _)

/-- The step uses no checkpoint. -/
def Step.Onward : Step → Prop
  | .save _ | .restore _ => False
  | _ => True

/-- A step without checkpoints touches neither the queue nor the
checkpoints that are saved. One case for each kind of step. -/
theorem Step.run_onlyBuilds {s : Step} (hs : s.Onward) : OnlyBuilds (s.run site temps) := by
  cases s with
  | bind name e => exact (evalTerm_onlyBuilds e).bind fun _ => .pure _
  | load name addr bytes =>
    exact (evalTerm_onlyBuilds addr).bind fun _ =>
      (OnlyBuilds.build (.load _ _ _ _)).bind fun _ => .pure _
  | prim name primitive args ty isPure =>
    exact (evalTerms_onlyBuilds args).bind fun _ =>
      (OnlyBuilds.build (.define _ _ _)).bind fun _ => .pure _
  | set r e =>
    exact (evalTerm_onlyBuilds e).bind fun _ =>
      (OnlyBuilds.build (.setRegister _ _ _)).bind fun _ => .pure _
  | setIp addr => exact (OnlyBuilds.build (.setRegister _ _ _)).bind fun _ => .pure _
  | advance => exact (OnlyBuilds.build (.setRegister _ _ _)).bind fun _ => .pure _
  | store addr value =>
    exact (evalTerm_onlyBuilds addr).bind fun _ => (evalTerm_onlyBuilds value).bind fun _ =>
      (OnlyBuilds.build (.store _ _ _)).bind fun _ => .pure _
  | emit s => exact (OnlyBuilds.build (.emit s)).bind fun _ => .pure _
  | arch name args =>
    exact (evalTerms_onlyBuilds args).bind fun _ =>
      (OnlyBuilds.build (.emit _)).bind fun _ => .pure _
  | close c => exact (Closing.run_onlyBuilds c).bind fun _ => .pure _
  | fail reason => exact .fail reason
  | moveTo addr =>
    exact fun p => ⟨{ p.builder with instrAddr := addr }, ⟨Nat.le_refl _, .refl⟩, rfl⟩
  | save name | restore name => exact hs.elim
  | look => exact .pure _

/-! ### Nothing is lost on the way -/

/-- A property of recipes that holds of the parts of a recipe too, and
that rules out steps that return to a checkpoint. -/
structure Heritable (P : Recipe → Prop) : Prop where
  step : ∀ {s rest}, P (.step s rest) → (∀ name, s ≠ .restore name) ∧ P rest
  branch : ∀ {cond onTrue onFalse rest}, P (.branch cond onTrue onFalse rest) →
    P onTrue ∧ P onFalse ∧ P rest

section Growth

variable {P : Recipe → Prop}

/-- From one state of a run to a later one, with queues of recipes that
have the property, blocks and numbers are only added. -/
def Progress.Advances (P : Recipe → Prop) (p p' : Progress) : Prop :=
  (∀ arm ∈ p.pending, P arm.body) →
    p.builder.Grows p'.builder ∧ ∀ arm ∈ p'.pending, P arm.body

/-- Two stretches of a run make one. The second one starts from the queue
that the first one left. -/
theorem Progress.Advances.trans {p₁ p₂ p₃ : Progress} (h : p₁.Advances P p₂)
    (h' : p₂.Advances P p₃) : p₁.Advances P p₃ := by
  intro harms
  obtain ⟨hgrows, harms⟩ := h harms
  obtain ⟨hgrows', harms⟩ := h' harms
  exact ⟨hgrows.trans hgrows', harms⟩

/-- The part only adds, whether or not it succeeds. -/
def Grows (P : Recipe → Prop) {α : Type} (x : RunM α) : Prop :=
  ∀ p : Progress, p.Advances P (x p).2

namespace Grows

variable {α β : Type}

/-- A part that only builds leaves the queue alone. -/
theorem of_onlyBuilds {x : RunM α} (hx : OnlyBuilds x) : Grows P x := by
  intro p harms
  obtain ⟨b, hgrows, hp⟩ := hx p
  rw [hp]
  exact ⟨hgrows, harms⟩

/-- Nothing changes. -/
theorem pure (a : α) : Grows P (Pure.pure a : RunM α) := of_onlyBuilds (.pure a)

/-- An operation that only adds to the builder. -/
theorem build {x : Build α} (hx : x.Grows) : Grows P (Recipe.build x) := of_onlyBuilds (.build hx)

/-- The trace does not matter. -/
theorem recorded {x : RunM α} (hx : Grows P x) (step : Option Step) (outcome : α → Outcome) :
    Grows P (Recipe.recorded step outcome x) := hx

/-- Two parts that only add do so one after the other. After an error the
state of the first one is final. -/
theorem bind {x : RunM α} {f : α → RunM β} (hx : Grows P x) (hf : ∀ a, Grows P (f a)) :
    Grows P (x >>= f) := by
  intro p
  have hp := hx p
  rw [bind_apply]
  cases hxp : x p with
  | mk result q =>
    rw [hxp] at hp
    cases result with
    | error e => exact hp
    | ok a => exact hp.trans (hf a q)

end Grows

/-- Every step only adds, except one that returns to a checkpoint. -/
theorem Step.run_grows {s : Step} (hs : ∀ name, s ≠ .restore name) :
    Grows P (s.run site temps) := by
  cases s with
  -- The checkpoint that is saved does not change the builder.
  | save name => exact fun p harms => ⟨.refl p.builder, harms⟩
  | restore name => exact absurd rfl (hs name)
  | bind | load | prim | set | setIp | advance | store | emit | arch | close | fail | moveTo
  | look =>
    exact .of_onlyBuilds (Step.run_onlyBuilds trivial)

/-- A split adds two arms to the queue, and their bodies have the property.
-/
theorem queueArms_grows {cond : Value} {onTrue onFalse : Recipe} (ht : P onTrue)
    (hf : P onFalse) : Grows P (queueArms cond onTrue onFalse temps) := by
  refine (Grows.build (.split cond)).bind fun arms p harms => ?_
  refine ⟨.refl p.builder, fun arm harm => ?_⟩
  rcases List.mem_append.1 harm with harm | harm
  · exact harms arm harm
  · simp only [List.mem_cons, List.not_mem_nil, or_false] at harm
    rcases harm with rfl | rfl
    · exact ht
    · exact hf

/-- A recipe only adds if what happens after its splits does. -/
theorem exec_grows (hP : Heritable P) {settle : RunM Unit} (hsettle : Grows P settle) {r : Recipe}
    (hr : P r) (temps : Temps) : Grows P (exec site settle r temps) := by
  induction r generalizing temps with
  | done => exact .pure ()
  | step s rest ih =>
    obtain ⟨hs, hrest⟩ := hP.step hr
    exact ((Step.run_grows hs).recorded (some s) Prod.snd).bind fun _ => ih hrest _
  | branch cond onTrue onFalse rest iht ihf ihr =>
    obtain ⟨ht, hf, hrest⟩ := hP.branch hr
    refine Grows.bind (.recorded ?_ none fun _ => .nothing) fun _ => ihr hrest temps
    refine (Grows.of_onlyBuilds (evalTerm_onlyBuilds cond)).bind fun v =>
      (Grows.build (.checkCondition v)).bind fun _ => ?_
    -- A literal takes its arm at once; anything else splits.
    split
    · exact iht ht temps
    · exact ihf hf temps
    · exact (queueArms_grows ht hf).bind fun _ => hsettle

/-- An arm is a recipe in a block of its own. -/
theorem Arm.run_grows (hP : Heritable P) {arm : Arm} (harm : P arm.body) : Grows P (arm.run site) :=
  (Grows.build (.enter _ _)).bind fun _ =>
    (exec_grows hP (.pure ()) harm arm.temps).bind fun _ => .build .closeIfOpen

/-- One turn of the queue. -/
theorem Progress.advances_of_cons (hP : Heritable P) (site : Site) {arm : Arm} {rest : List Arm}
    (hp : p.pending = arm :: rest) :
    p.Advances P (arm.run site { p with pending := rest }).2 := by
  intro harms
  rw [hp] at harms
  exact Arm.run_grows hP (harms arm List.mem_cons_self) { p with pending := rest }
    fun a ha => harms a (List.mem_cons_of_mem arm ha)

/-- Working off the queue only adds. Induction on the turns of the queue.
-/
theorem drain_grows (hP : Heritable P) (site : Site) : Grows P (drain site) := by
  refine drain_induction site (motive := fun p result => p.Advances P result.2) ?_ ?_ ?_
  · intro p _ harms
    exact ⟨.refl p.builder, harms⟩
  · intro p arm rest p' hp hrun ih
    have hturn := Progress.advances_of_cons hP site hp
    rw [hrun] at hturn
    exact hturn.trans ih
  · -- An arm that fails empties the queue, and so nothing is left to show of it.
    intro p arm rest e p' hp hrun harms
    have hturn := Progress.advances_of_cons hP site hp
    rw [hrun] at hturn
    exact ⟨(hturn harms).1, by simp⟩

/-- So does the whole run of a recipe. -/
theorem start_grows (hP : Heritable P) (site : Site) {r : Recipe} (hr : P r) (b : Builder) :
    b.Grows (r.start site b).2.builder :=
  (exec_grows hP (drain_grows hP site) hr [] { builder := b } (by simp)).1

end Growth

/-! ### A small machine -/

/-- A machine with a flag and one register. Results about recipes and runs
are shown at work on it. -/
def flagMachine : Machine where
  name := "flag"
  addrWidth := 64
  order := .little
  registers := [.word64 "ip", .flag "z", .word64 "a"]
  ip := 0
  sp := 2

end FlowRecovery.Recipe
