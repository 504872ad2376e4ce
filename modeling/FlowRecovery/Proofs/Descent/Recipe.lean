import FlowRecovery.Proofs.Descent

/-!
# `FlowRecovery.Proofs.Descent.Recipe`: generator runs descend

Recipes, the arms that they queue and the instructions that they describe
take numbers and give none back, so all that they write descends
(`Recipe.Step.issues_run`, `Recipe.safe_exec`, `Disassembly.safe_decodeOne`).

`Recipe.Generates` is any number of runs that share one count of assignment
numbers. Each of them does what it likes: it performs recipes, leaves some
of them halfway, opens and closes the blocks of arms, goes back to
checkpoints, and decodes instructions that may fail.
`Recipe.Generates.descends` says that whatever was written at any time
descends.
-/

set_option autoImplicit false

namespace FlowRecovery

namespace Recipe

variable {site : Site} {temps : Temps} {n m : Nat}

/-! ### What is handed in -/

/-- The temporaries mention numbers below `n`. -/
def Temps.Below (n : Nat) (temps : Temps) : Prop :=
  ∀ entry ∈ temps, entry.2.Below n

/-- Temporaries stay known while more numbers are taken. -/
theorem Temps.Below.mono (h : Temps.Below n temps) (hle : n ≤ m) : Temps.Below m temps :=
  fun entry hentry => (h entry hentry).mono hle

/-- A temporary that is bound to a known value. -/
theorem Temps.Below.cons (h : Temps.Below n temps) (name : String) {v : Value} (hv : v.Below n) :
    Temps.Below n ((name, v) :: temps) :=
  List.forall_mem_cons.2 ⟨hv, h⟩

/-- A value in the leaf mentions a number below `n`. What registers and
temporaries hold is asked of these. -/
def Leaf.Below (n : Nat) : Leaf → Prop
  | .value v => v.Below n
  | .reg _ | .temp _ | .undecodable _ => True

/-- The values in the term mention numbers below `n`. -/
def Term.Below (n : Nat) (e : Term) : Prop := e.All (Leaf.Below n)

/-- Terms stay known while more numbers are taken. -/
theorem Term.Below.mono {e : Term} (h : Term.Below n e) (hle : n ≤ m) : Term.Below m e := by
  refine Expr.All.imp (fun l hl => ?_) h
  cases l with
  | value v => exact Value.Below.mono hl hle
  | reg | temp | undecodable => trivial

/-- The terms that a closing step evaluates. -/
def Closing.terms : Closing → List Term
  | .fetch | .failed .. => []
  | .branch cond _ _ => [cond]
  | .arch _ args => args

/-- The terms that the step evaluates. -/
def Step.terms : Step → List Term
  | .bind _ e | .load _ e _ | .set _ e => [e]
  | .prim _ _ args _ _ | .arch _ args => args
  | .store addr value => [addr, value]
  | .close c => c.terms
  | .setIp _ | .advance | .emit _ | .fail _ | .moveTo _ | .save _ | .restore _ | .look => []

/-- The step is handed values that mention numbers below `n`, and appends no
assignment as it is. -/
structure Step.Below (n : Nat) (s : Step) : Prop where
  terms : ∀ e ∈ s.terms, Term.Below n e
  unnamed : s.Unnamed

/-- The two parts of `Step.Below`, for rewriting. -/
theorem Step.below_iff {s : Step} : s.Below n ↔ (∀ e ∈ s.terms, Term.Below n e) ∧ s.Unnamed :=
  ⟨fun h => ⟨h.terms, h.unnamed⟩, fun h => ⟨h.1, h.2⟩⟩

/-- So is every step of the recipe. -/
def Below (n : Nat) : Recipe → Prop
  | .done => True
  | .step s rest => s.Below n ∧ rest.Below n
  | .branch cond onTrue onFalse rest =>
    Term.Below n cond ∧ onTrue.Below n ∧ onFalse.Below n ∧ rest.Below n

/-- Recipes stay known while more numbers are taken. -/
theorem Below.mono {r : Recipe} (h : r.Below n) (hle : n ≤ m) : r.Below m := by
  induction r with
  | done => trivial
  | step s rest ih => exact ⟨⟨fun e he => (h.1.terms e he).mono hle, h.1.unnamed⟩, ih h.2⟩
  | branch cond onTrue onFalse rest iht ihf ihr =>
    exact ⟨h.1.mono hle, iht h.2.1, ihf h.2.2.1, ihr h.2.2.2⟩

/-- The arm starts from values that mention numbers below `n`. -/
structure Arm.Below (n : Nat) (arm : Arm) : Prop where
  regs : arm.regs.Below n
  temps : Temps.Below n arm.temps
  body : arm.body.Below n

/-- So do arms that wait. -/
theorem Arm.Below.mono {arm : Arm} (h : arm.Below n) (hle : n ≤ m) : arm.Below m :=
  ⟨h.regs.mono hle, h.temps.mono hle, h.body.mono hle⟩

/-! ### Steps -/

/-- All that the run holds or has passed through descends, and what it may
still use mentions numbers that have been taken. -/
structure Progress.Descends (p : Progress) : Prop where
  builder : p.builder.Descends
  pending : ∀ arm ∈ p.pending, arm.Below p.builder.issued
  saved : ∀ entry ∈ p.saved, ∀ blk, entry.2.current = some blk → blk.Descends p.builder.issued
  trace : ∀ event ∈ p.trace, event.after.Descends

/-- At the beginning of a run nothing waits and nothing has been saved. -/
theorem Progress.descends_of_builder {b : Builder} (hb : b.Descends) :
    Progress.Descends { builder := b } :=
  ⟨hb, fun _ h => absurd h List.not_mem_nil, fun _ h => absurd h List.not_mem_nil,
    fun _ h => absurd h List.not_mem_nil⟩

/-- What is held stays known when the builder goes on. -/
theorem Progress.Descends.withBuilder {p : Progress} (h : p.Descends) {b : Builder}
    (hb : b.Descends) (hle : p.builder.issued ≤ b.issued) :
    Progress.Descends { p with builder := b } :=
  ⟨hb, fun arm harm => (h.pending arm harm).mono hle,
    fun entry hentry blk hblk => (h.saved entry hentry blk hblk).mono hle, h.trace⟩

/-- A part of the run of a recipe. -/
abbrev Issues {α : Type} (n : Nat) (x : RunM α) (Q : Nat → α → Prop) : Prop :=
  FlowRecovery.Issues Progress.Descends Progress.builder n x Q

/-- A part that returns nothing of which anything is asked. -/
abbrev Safe {α : Type} (n : Nat) (x : RunM α) : Prop := Issues n x fun _ _ => True

/-- An operation on the builder is a part of a run. -/
theorem issues_build {α : Type} {x : Build α} {Q : Nat → α → Prop} (hx : Build.Issues n x Q) :
    Issues n (build x) Q := by
  intro p hp hn
  have hpost := hx p.builder hp.builder hn
  exact ⟨hp.withBuilder hpost.inv hpost.le, hpost.le, hpost.result⟩

/-- A leaf gives a value that is known by then. -/
theorem Leaf.issues_resolve {l : Leaf} (hl : l.Below n) (htemps : Temps.Below n temps) :
    Issues n (l.resolve site temps) fun k v => v.Below k := by
  cases l with
  | value v => exact .pure fun k hk => Value.Below.mono hl hk
  | reg r => exact issues_build (Build.issues_getRegister r)
  | undecodable reason => exact .fail _
  | temp name =>
    simp only [Leaf.resolve]
    split
    · rename_i v hv
      exact .pure fun k hk => (htemps _ (mem_of_lookup_eq_some hv)).mono hk
    · exact .fail _

/-- So does a term. Its leaves are resolved one after the other, and the
values of the earlier ones stay known meanwhile. -/
theorem issues_evalTerm {e : Term} (he : Term.Below n e) (htemps : Temps.Below n temps) :
    Issues n (evalTerm site temps e) fun k v => v.Below k := by
  have hmono {k l : Nat} (hle : k ≤ l) {e : Expr Value} (he : e.All (Value.Below k)) :
      e.All (Value.Below l) := he.imp fun _ hv => hv.mono hle
  have hresolve : Issues n (e.resolve (Leaf.resolve site temps))
      fun k (e' : Expr Value) => e'.All (Value.Below k) := by
    -- Induction on the term, for every count to start from.
    induction e generalizing n with
    | leaf l => exact (Leaf.issues_resolve he htemps).map fun k v hv l hl => hv.mono hl
    | unary op arg ih => exact (ih he htemps).map fun k e' he' l hl => hmono hl he'
    | ext op arg width ih => exact (ih he htemps).map fun k e' he' l hl => hmono hl he'
    | binary op left right ihl ihr =>
      refine (ihl he.1 htemps).bind fun k e₁ hk h₁ => ?_
      refine (ihr (Term.Below.mono he.2 hk) (htemps.mono hk)).bind fun l e₂ hl h₂ => ?_
      exact .pure fun j hj => ⟨hmono (Nat.le_trans hl hj) h₁, hmono hj h₂⟩
    | select cond onTrue onFalse ihc iht ihf =>
      refine (ihc he.1 htemps).bind fun k e₁ hk h₁ => ?_
      refine (iht (Term.Below.mono he.2.1 hk) (htemps.mono hk)).bind fun l e₂ hl h₂ => ?_
      have hkl := Nat.le_trans hk hl
      refine (ihf (Term.Below.mono he.2.2 hkl) (htemps.mono hkl)).bind fun j e₃ hj h₃ => ?_
      exact .pure fun i hi =>
        ⟨hmono (Nat.le_trans hl (Nat.le_trans hj hi)) h₁, hmono (Nat.le_trans hj hi) h₂,
          hmono hi h₃⟩
  exact hresolve.bind fun _ _ _ he' => issues_build (Build.issues_evaluate he')

/-- So does each of a list of terms. -/
theorem issues_evalTerms {es : List Term} (hes : ∀ e ∈ es, Term.Below n e)
    (htemps : Temps.Below n temps) :
    Issues n (evalTerms site temps es) fun k (vs : List Value) => ∀ v ∈ vs, v.Below k := by
  induction es generalizing n with
  | nil => exact .pure fun _ _ _ h => absurd h List.not_mem_nil
  | cons e rest ih =>
    obtain ⟨he, hrest⟩ := List.forall_mem_cons.1 hes
    refine (issues_evalTerm he htemps).bind fun k v hk hv => ?_
    refine (ih (fun e he => (hrest e he).mono hk) (htemps.mono hk)).bind fun l vs hl hvs => ?_
    exact .pure fun j hj =>
      List.forall_mem_cons.2 ⟨hv.mono (Nat.le_trans hl hj), fun u hu => (hvs u hu).mono hj⟩

/-- The exit mentions the registers and what has been evaluated for it. -/
theorem Closing.safe_run {c : Closing} (hc : ∀ e ∈ c.terms, Term.Below n e)
    (htemps : Temps.Below n temps) : Safe n (c.run site temps) := by
  cases c with
  | fetch => exact issues_build Build.safe_close_fetch
  | failed addr reason => exact issues_build (Build.safe_close_failed addr reason)
  | branch cond t f =>
    refine (issues_evalTerm (List.forall_mem_singleton.1 hc) htemps).bind fun k v _ hv => ?_
    exact issues_build (Build.safe_close fun _ _ hk _ => List.forall_mem_singleton.2 (hv.mono hk))
  | arch name args =>
    refine (issues_evalTerms hc htemps).bind fun k vs _ hvs => ?_
    exact issues_build (Build.safe_close fun _ _ hk hregs =>
      List.forall_mem_append.2 ⟨hregs, fun v hv => (hvs v hv).mono hk⟩)

/-- The temporaries after a step mention numbers that have been taken. -/
theorem Step.issues_run {s : Step} (hs : s.Below n) (htemps : Temps.Below n temps) :
    Issues n (s.run site temps) fun k (out : Temps × Outcome) => Temps.Below k out.1 := by
  obtain ⟨hterms, hunnamed⟩ := hs
  -- Where nothing is bound, the temporaries are those from before.
  have hsame {α : Type} {x : RunM α} {k : Nat} (hx : Safe k x) (hk : n ≤ k) (out : α → Outcome) :
      Issues k (x >>= fun a => pure (temps, out a))
        fun k (out : Temps × Outcome) => Temps.Below k out.1 :=
    hx.bind fun l _ hl _ => .pure fun j hj => htemps.mono (Nat.le_trans hk (Nat.le_trans hl hj))
  -- Where something is bound, it is known by then.
  have hbound {x : RunM Value} {k : Nat} (hx : Issues k x fun k v => v.Below k) (hk : n ≤ k)
      (name : String) :
      Issues k (x >>= fun v => pure ((name, v) :: temps, Outcome.value v))
        fun k (out : Temps × Outcome) => Temps.Below k out.1 :=
    hx.bind fun l v hl hv => .pure fun j hj =>
      (htemps.mono (Nat.le_trans hk (Nat.le_trans hl hj))).cons name (hv.mono hj)
  cases s with
  | bind name e =>
    exact hbound (issues_evalTerm (List.forall_mem_singleton.1 hterms) htemps) (Nat.le_refl n) name
  | load name addr bytes =>
    refine (issues_evalTerm (List.forall_mem_singleton.1 hterms) htemps).bind fun k a hk ha => ?_
    exact hbound (issues_build (Build.issues_load site.machine site.image ha bytes)) hk name
  | prim name primitive args ty isPure =>
    refine (issues_evalTerms hterms htemps).bind fun k vs hk hvs => ?_
    exact hbound (issues_build (Build.issues_evaluatePrim hvs)) hk name
  | set r e =>
    refine (issues_evalTerm (List.forall_mem_singleton.1 hterms) htemps).bind fun k v hk hv => ?_
    exact hsame (issues_build (Build.safe_setRegister site.machine r hv)) hk fun _ => .nothing
  | setIp addr =>
    exact hsame (issues_build (Build.safe_setIp site.machine addr)) (Nat.le_refl n)
      fun _ => .nothing
  | advance =>
    exact hsame (issues_build (Build.safe_setIp site.machine site.next)) (Nat.le_refl n)
      fun _ => .nothing
  | store addr value =>
    obtain ⟨haddr, hvalue⟩ := List.forall_mem_cons.1 hterms
    refine (issues_evalTerm haddr htemps).bind fun k a hk _ => ?_
    refine (issues_evalTerm ((List.forall_mem_singleton.1 hvalue).mono hk) (htemps.mono hk)).bind
      fun l v hl _ => ?_
    exact hsame (issues_build (Build.safe_store site.machine a v)) (Nat.le_trans hk hl)
      fun _ => .nothing
  | emit s =>
    exact hsame (issues_build (Build.safe_emit hunnamed)) (Nat.le_refl n) fun _ => .nothing
  | arch name args =>
    refine (issues_evalTerms hterms htemps).bind fun k vs hk _ => ?_
    exact hsame (issues_build (Build.safe_emit rfl)) hk fun _ => .nothing
  | close c => exact hsame (Closing.safe_run hterms htemps) (Nat.le_refl n) Outcome.block
  | fail reason => exact .fail _
  | moveTo addr =>
    refine hsame (issues_build fun b hb _ => ?_) (Nat.le_refl n) fun _ => .nothing
    exact ⟨hb.moveTo addr, Nat.le_refl _, fun _ _ => trivial⟩
  | save name =>
    intro p hp hn
    refine ⟨⟨hp.builder, hp.pending, ?_, hp.trace⟩, Nat.le_refl _, fun out hout => ?_⟩
    · exact List.forall_mem_cons.2 ⟨hp.builder.current, hp.saved⟩
    · cases hout
      exact htemps.mono hn
  | restore name =>
    intro p hp hn
    rw [Step.restore_apply]
    cases hsaved : p.saved.lookup name with
    | none => exact FlowRecovery.Issues.fail _ p hp hn
    | some c =>
      -- The checkpoint mentions what was known when it was taken.
      have hc := hp.saved _ (mem_of_lookup_eq_some hsaved)
      exact hsame (issues_build (Build.safe_rollback hc)) hn (fun _ => .nothing) p hp
        (Nat.le_refl _)
  | look => exact .pure fun k hk => htemps.mono hk

/-! ### Recipes -/

/-- The arms of a split start from registers and temporaries that are
known. -/
theorem safe_queueArms {v : Value} {onTrue onFalse : Recipe} (hv : v.Below n)
    (htrue : onTrue.Below n) (hfalse : onFalse.Below n) (htemps : Temps.Below n temps) :
    Safe n (queueArms v onTrue onFalse temps) := by
  refine (issues_build (Build.issues_split hv)).bind fun k arms hk hregs p hp hn => ?_
  have hle := Nat.le_trans hk hn
  refine ⟨⟨hp.builder, List.forall_mem_append.2 ⟨hp.pending, ?_⟩, hp.saved, hp.trace⟩,
    Nat.le_refl _, fun _ _ => trivial⟩
  refine List.forall_mem_cons.2 ⟨?_, List.forall_mem_singleton.2 ?_⟩
  · exact ⟨hregs.mono hn, htemps.mono hle, htrue.mono hle⟩
  · exact ⟨hregs.mono hn, htemps.mono hle, hfalse.mono hle⟩

/-- What is recorded in the trace is a builder that descends. -/
theorem issues_recorded {α : Type} {x : RunM α} {Q : Nat → α → Prop} (hx : Issues n x Q)
    (step : Option Step) (outcome : α → Outcome) : Issues n (recorded step outcome x) Q := by
  intro p hp hn
  have hpost := hx p hp hn
  refine ⟨⟨hpost.inv.builder, hpost.inv.pending, hpost.inv.saved, ?_⟩, hpost.le, hpost.result⟩
  exact List.forall_mem_cons.2 ⟨hpost.inv.builder, hpost.inv.trace⟩

/-- A recipe descends if what happens after its splits does. Induction on
the recipe, for every count to start from. -/
theorem safe_exec {settle : RunM Unit} (hsettle : ∀ k, Safe k settle) {r : Recipe}
    (hr : r.Below n) (htemps : Temps.Below n temps) : Safe n (exec site settle r temps) := by
  induction r generalizing n temps with
  | done => exact .done ()
  | step s rest ih =>
    exact (issues_recorded (Step.issues_run hr.1 htemps) (some s) Prod.snd).bind
      fun k out hk hout => ih (hr.2.mono hk) hout
  | branch cond onTrue onFalse rest iht ihf ihr =>
    obtain ⟨hcond, htrue, hfalse, hrest⟩ := hr
    refine (issues_recorded (Q := fun _ _ => True) ?_ none fun _ => .nothing).bind
      fun k _ hk _ => ihr (hrest.mono hk) (htemps.mono hk)
    refine (issues_evalTerm hcond htemps).bind fun k v hk hv => ?_
    refine (issues_build (Build.safe_checkCondition v)).bind fun l _ hl _ => ?_
    have hle := Nat.le_trans hk hl
    -- A literal takes its arm at once; anything else splits.
    split
    · exact iht (htrue.mono hle) (htemps.mono hle)
    · exact ihf (hfalse.mono hle) (htemps.mono hle)
    · exact (safe_queueArms (hv.mono hl) (htrue.mono hle) (hfalse.mono hle)
        (htemps.mono hle)).bind fun j _ _ _ => hsettle j

/-- So does an arm in its own block. -/
theorem Arm.safe_run (site : Site) {arm : Arm} (harm : arm.Below n) : Safe n (arm.run site) :=
  (issues_build (Build.safe_enter _ harm.regs)).bind fun _ _ hk _ =>
    (safe_exec (fun _ => .done ()) (harm.body.mono hk) (harm.temps.mono hk)).bind fun _ _ _ _ =>
      issues_build Build.safe_closeIfOpen

/-- So does working off the queue, arm after arm. -/
theorem safe_drain (site : Site) (n : Nat) : Safe n (drain site) := by
  refine .of_preserves fun k _ => drain_preserves (J := fun p arm => arm.Below p.builder.issued)
    (fun p _ hp => hp.1.pending) (fun p pending hfewer hp => ⟨?_, hp.2⟩) fun p arm harm hp => ?_
  · exact ⟨hp.1.builder, fun arm harm => hp.1.pending arm (hfewer harm), hp.1.saved, hp.1.trace⟩
  · have hpost := Arm.safe_run site harm p hp.1 (Nat.le_refl _)
    exact ⟨hpost.inv, Nat.le_trans hp.2 hpost.le⟩

/-- What the action is handed mentions numbers below `n`, and it appends no
assignment as it is. -/
def Action.Below (n : Nat) : Action → Prop
  | .perform _ op => op.recipe.Below n ∧ Temps.Below n op.temps
  | .enter | .leave | .drain _ => True

/-- Every action descends, whatever its level. -/
theorem Action.safe_run {a : Action} (ha : a.Below n) : Safe n a.run := by
  cases a with
  | perform level op =>
    refine safe_exec (fun k => ?_) ha.1 ha.2
    cases level with
    | outermost => exact safe_drain op.site k
    | arm => exact .done ()
  | leave => exact issues_build Build.safe_closeIfOpen
  | drain site => exact safe_drain site n
  | enter =>
    intro p hp hn
    rw [enter_apply]
    cases hpending : p.pending with
    | nil => exact FlowRecovery.Issues.done () p hp hn
    | cons arm rest =>
      -- The first arm leaves the queue and becomes the open block.
      obtain ⟨harm, hrest⟩ := List.forall_mem_cons.1 (hpending ▸ hp.pending)
      have hpost := issues_build (Build.safe_enter arm.index harm.regs) { p with pending := rest }
        ⟨hp.builder, hrest, hp.saved, hp.trace⟩ (Nat.le_refl _)
      exact ⟨hpost.inv, hpost.le, fun _ _ => trivial⟩

/-- A run that begins with the recipe. -/
theorem safe_exec_drain (site : Site) {r : Recipe} (hr : r.Below n) :
    Safe n (exec site (drain site) r []) :=
  safe_exec (safe_drain site) hr fun _ h => absurd h List.not_mem_nil

/-- A whole recipe, seen as an operation on the builder. -/
theorem safe_run {r : Recipe} (hr : r.Below n) : Build.Safe n (r.run site) := by
  intro b hb hn
  have hpost := safe_exec_drain site hr { builder := b } (Progress.descends_of_builder hb) hn
  exact ⟨hpost.inv.builder, hpost.le, fun _ _ => trivial⟩

/-- Every builder that the run has passed through descends. -/
theorem Progress.Descends.builders {p : Progress} (h : p.Descends) :
    ∀ b ∈ p.builders, b.Descends := by
  refine List.forall_mem_cons.2 ⟨h.builder, fun b hb => ?_⟩
  obtain ⟨event, hevent, rfl⟩ := List.mem_map.1 hb
  exact h.trace event hevent

end Recipe

namespace Disassembly

variable {src : Source} {pc : Word} {n : Nat}

/-- An instruction that fails is undone, but the numbers that it has taken
stay taken. -/
theorem safe_decodeOne
    (hsrc : ∀ instr size, fetch src pc = .ok (instr, size) →
      (src.isa.recipe instr pc size).Below n) :
    Build.Safe n (decodeOne src pc) := by
  have hstep : Build.Safe n (step src pc) := by
    have hfetch : Build.Issues n (ExceptT.mk (pure (fetch src pc)) : Build (src.isa.Instr × Nat))
        fun _ found => fetch src pc = .ok found :=
      fun b hb _ => ⟨hb, Nat.le_refl _, fun _ hfound => hfound⟩
    refine hfetch.bind fun k found hk hfound => (Build.safe_emit rfl).bind fun l _ hl _ => ?_
    exact (Recipe.safe_run ((hsrc found.1 found.2 hfound).mono (Nat.le_trans hk hl))).bind
      fun _ _ _ _ => .done found.2
  refine .of_preserves fun k hk => decodeOne_preserves (Build.safe_close_fetch.preserves hk)
    (fun b hb => ⟨hb.1.moveTo pc, hb.2⟩) (hstep.preserves hk) (fun b hb => ?_)
    fun reason => (Build.safe_close_failed pc reason).preserves hk
  have hpost := hstep b hb.1 (Nat.le_trans hk hb.2)
  refine ⟨hpost.inv.rollback fun blk hblk => ?_, Nat.le_trans hb.2 hpost.le⟩
  exact (hb.1.current blk hblk).mono hpost.le

/-- The builders between the steps of the instruction at `pc`, up to where
it fails if it does. -/
def midway (src : Source) (pc : Word) (b : Builder) : List Builder :=
  match fetch src pc with
  | .error _ => []
  | .ok (instr, size) =>
    match Build.emit (.instruction pc size) { b with instrAddr := pc } with
    | (.error _, _) => []
    | (.ok (), marked) =>
      ((src.isa.recipe instr pc size).start
        { machine := src.machine, image := src.image, addr := pc, size } marked).2.builders

/-- Halfway through an instruction everything descends as well. -/
theorem descends_midway (hsrc : ∀ instr size, (src.isa.recipe instr pc size).Below n) {b : Builder}
    (hb : b.Descends) (hn : n ≤ b.issued) : ∀ c ∈ midway src pc b, c.Descends := by
  unfold midway
  split
  · exact fun _ h => absurd h List.not_mem_nil
  · rename_i instr size _
    have hemit := Build.safe_emit (s := .instruction pc size) rfl _ (hb.moveTo pc) hn
    split
    · exact fun _ h => absurd h List.not_mem_nil
    · rename_i marked hmarked
      rw [hmarked] at hemit
      have hpost := Recipe.safe_exec_drain ⟨src.machine, src.image, pc, size⟩ (hsrc instr size)
        { builder := marked } (Recipe.Progress.descends_of_builder hemit.inv)
        (Nat.le_trans hn hemit.le)
      exact hpost.inv.builders

end Disassembly

/-! ### Runs that share their numbers -/

namespace Recipe

/-- The state of a run, and the builders from before. There may have been
other runs, and all of them take their numbers from one count. What is
handed in mentions numbers that have been taken by then, and no assignment
is appended as it is. -/
inductive Generates : List Builder → Progress → Prop
  | start {d : Discovery} {regs : RegFile} (addr : Word) (hd : d.ledger.finished = [])
      (hregs : regs.Below d.issued) : Generates [] { builder := .start d addr regs }
  | act {past : List Builder} {p : Progress} {a : Action} (h : Generates past p)
      (ha : a.Below p.builder.issued) : Generates (p.builder :: past) (a.run p).2
  /-- Decode an instruction, whether or not that succeeds. -/
  | decode {past : List Builder} {p : Progress} {src : Disassembly.Source} {pc : Word}
      (h : Generates past p)
      (hsrc : ∀ instr size, (src.isa.recipe instr pc size).Below p.builder.issued) :
      Generates (Disassembly.midway src pc p.builder ++ p.builder :: past)
        { p with builder := (Disassembly.decodeOne src pc p.builder).2 }
  /-- Begin another run, which may be given finished blocks. -/
  | next {past : List Builder} {p : Progress} {ledger : Ledger} {regs : RegFile} (addr : Word)
      (h : Generates past p) (hledger : ledger.finished ⊆ p.builder.ledger.finished)
      (hregs : regs.Below p.builder.issued) :
      Generates (p.builders ++ past)
        { builder := .start { issued := p.builder.issued, ledger } addr regs }

/-- The statements that have been written at any time, also those that were
undone. -/
def written (past : List Builder) (p : Progress) : List Stmt :=
  (p.builders ++ past).flatMap Builder.written

/-- A run starts from finished blocks and registers that are known. -/
theorem Progress.Descends.start {d : Discovery} {regs : RegFile} (addr : Word)
    (hd : ∀ blk ∈ d.ledger.finished, blk.Descends d.issued) (hregs : regs.Below d.issued) :
    Progress.Descends { builder := .start d addr regs } := by
  refine Progress.descends_of_builder ⟨fun blk hblk => ?_, hd⟩
  cases hblk
  exact ⟨fun _ h => absurd h List.not_mem_nil, hregs, fun _ h => absurd h List.not_mem_nil⟩

/-- What every step of such runs keeps. -/
theorem Generates.inv {past : List Builder} {p : Progress} (h : Generates past p) :
    p.Descends ∧ ∀ b ∈ past, b.Descends := by
  induction h with
  | start addr hd hregs =>
    refine ⟨.start addr (fun blk hblk => ?_) hregs, fun _ hb => absurd hb List.not_mem_nil⟩
    rw [hd] at hblk
    cases hblk
  | act _ ha ih =>
    obtain ⟨hp, hpast⟩ := ih
    exact ⟨(Action.safe_run ha _ hp (Nat.le_refl _)).inv,
      List.forall_mem_cons.2 ⟨hp.builder, hpast⟩⟩
  | decode _ hsrc ih =>
    obtain ⟨hp, hpast⟩ := ih
    have hpost := Disassembly.safe_decodeOne (fun instr size _ => hsrc instr size) _ hp.builder
      (Nat.le_refl _)
    have hmidway := Disassembly.descends_midway hsrc hp.builder (Nat.le_refl _)
    exact ⟨hp.withBuilder hpost.inv hpost.le,
      List.forall_mem_append.2 ⟨hmidway, List.forall_mem_cons.2 ⟨hp.builder, hpast⟩⟩⟩
  | next addr _ hledger hregs ih =>
    obtain ⟨hp, hpast⟩ := ih
    exact ⟨.start addr (fun blk hblk => hp.builder.finished blk (hledger hblk)) hregs,
      List.forall_mem_append.2 ⟨hp.builders, hpast⟩⟩

/-- Whatever was written at any time descends. -/
theorem Generates.descends {past : List Builder} {p : Progress} (h : Generates past p) :
    ∀ s ∈ written past p, s.Descends := by
  obtain ⟨hp, hpast⟩ := h.inv
  intro s hs
  obtain ⟨b, hb, hs⟩ := List.mem_flatMap.1 hs
  exact (List.forall_mem_append.2 ⟨hp.builders, hpast⟩ b hb).written s hs

end Recipe

end FlowRecovery
