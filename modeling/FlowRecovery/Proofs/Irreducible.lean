import FlowRecovery.Proofs.Coverage
import FlowRecovery.Proofs.Flow
import FlowRecovery.Proofs.Law
import FlowRecovery.Proofs.Runs
import FlowRecovery.Proofs.Scope.Explore

/-!
# `FlowRecovery.Proofs.Irreducible`: blocks compute nothing that folds

An application is folded before it is named, so no assignment in a block
can be folded any further. In particular no choice depends on a literal,
or lies between two equal values.

This decides when classification can fail. The rule for conditional
returns asks whether both arms of a choice can be taken, and reports an
error if not. The question is answered by looking at the condition, and
the condition is never a literal. What is left is an arm that lies
outside executable memory (`function_classify_error`).
-/

set_option autoImplicit false

namespace FlowRecovery

/-- An assigned application cannot be folded. -/
def Stmt.Irreducible : Stmt → Prop
  | .assign _ _ (.app a) => a.fold = none
  | _ => True

/-- All blocks hold irreducible statements only. -/
def BlockLaw.irreducible : BlockLaw where
  stmt := Stmt.Irreducible
  regs _ := True
  exit _ := True
  writable _ := True
  app _ _ _ _ hfold := hfold
  load _ _ _ := trivial
  prim _ _ := trivial
  unnamed s hs := by
    cases s with
    | assign => cases hs
    | store | arch | instruction | comment => trivial
  set _ _ _ _ _ _ _ := trivial
  fetch _ := trivial
  branch _ _ _ := trivial
  arch _ _ _ := trivial

/-- The law asks nothing of what machines and recipes supply. -/
theorem BlockLaw.lenient_irreducible : BlockLaw.irreducible.Lenient :=
  ⟨fun _ => trivial, fun _ => trivial⟩

/-- All statements that a builder holds, in the open block and in the
finished ones. -/
def Builder.emitted (b : Builder) : List Stmt :=
  b.stmts ++ b.ledger.finished.flatMap Block.stmts

/-- The law, read off the statements of a builder. -/
theorem Builder.Lawful.irreducible {b : Builder} (h : b.Lawful .irreducible) :
    ∀ s ∈ b.emitted, s.Irreducible := by
  intro s hs
  rcases List.mem_append.1 hs with hopen | hfinished
  · cases hblk : b.current with
    | none =>
      rw [Builder.stmts, hblk] at hopen
      cases hopen
    | some blk =>
      rw [Builder.stmts, hblk] at hopen
      exact (h.current blk hblk).stmts s hopen
  · obtain ⟨blk, hblk, hs⟩ := List.mem_flatMap.1 hfinished
    exact (h.finished blk hblk).stmts s hs

/-- A choice that cannot be folded depends on an unknown condition and
lies between two values that are not surely equal. -/
theorem App.fold_select_eq_none {cond onTrue onFalse : Value}
    (h : (App.select cond onTrue onFalse).fold = none) :
    cond.bool? = none ∧ (onTrue = onFalse → onTrue.isClobbered = true) := by
  have hfold : cond.foldSelect onTrue onFalse = none := h
  cases cond with
  | bool b => cases hfold
  | bv | reloc | initial | returnAddr | clobbered | assign =>
    refine ⟨rfl, ?_⟩
    rintro rfl
    by_contra hknown
    simp [Value.foldSelect, Value.surelyEqual, hknown] at hfold

/-! ### Recorded definitions -/

/-- No recorded application can be folded. -/
def Definitions.Irreducible (defs : Definitions) : Prop :=
  ∀ id a, (id, Rhs.app a) ∈ defs.assigned → a.fold = none

/-- Recording the statements of a block adds its assignments, and no
others. -/
theorem Definitions.Irreducible.record {defs : Definitions} (h : defs.Irreducible)
    {stmts : List Stmt} (hstmts : ∀ s ∈ stmts, s.Irreducible) :
    (defs.record stmts).Irreducible := by
  intro id a hmem
  -- The recorded entries are the new assignments in front of the old ones.
  rw [assigned_record] at hmem
  rcases List.mem_append.1 hmem with hnew | hold
  · obtain ⟨s, hs, hentry⟩ := List.mem_filterMap.1 (List.mem_reverse.1 hnew)
    cases s with
    | assign id' ty rhs =>
      cases hentry
      exact hstmts _ hs
    | store | arch | instruction | comment => cases hentry
  · exact h id a hold

/-- An application that is looked up has been recorded. -/
theorem Definitions.Irreducible.app? {defs : Definitions} (h : defs.Irreducible) {v : Value}
    {a : App} (hv : defs.app? v = some a) : a.fold = none := by
  obtain ⟨id, ty, -, hlookup⟩ := app?_eq_some_iff.1 hv
  exact h id a (mem_of_lookup_eq_some hlookup)

/-! ### Exploration -/

namespace Explore

variable {task : Task}

/-- What has been recorded so far is irreducible, and no finished block
waits. -/
structure Progress.Irreducible (p : Progress) : Prop where
  defs : p.defs.Irreducible
  taken : p.session.discovery.ledger.finished = []

/-- The recipes of the task append no assignment as it is. -/
def Task.Unnamed (task : Task) : Prop :=
  ∀ instr addr size, (task.isa.recipe instr addr size).AllSteps Recipe.Step.Unnamed

/-- Recipes of that kind obey every law that is lenient. -/
theorem Task.Unnamed.lawful (h : task.Unnamed) {L : BlockLaw} (hL : L.Lenient) :
    task.source.Lawful L where
  machine := hL.admits _
  recipes instr addr size := (h instr addr size).imp fun _ => Recipe.Step.lawful_of_unnamed hL

/-- The blocks of the next run leave the definitions irreducible. -/
theorem irreducible_run (htask : task.Unnamed) {p : Progress} (hp : p.Irreducible) {addr : Word}
    {regs : RegFile} {out : Disassembly} {session : Disassembly.Session}
    (h : Disassembly.run task.source task.limits.maxInstructions addr regs p.session =
      (.ok out, session)) :
    (withBlocks p.defs out.blocks).Irreducible ∧ session.discovery.ledger.finished = [] := by
  obtain ⟨hblocks, htaken⟩ := Disassembly.lawful_run (htask.lawful BlockLaw.lenient_irreducible)
    (fun _ _ _ => trivial) trivial hp.taken h
  refine ⟨?_, htaken⟩
  rw [withBlocks_eq_record]
  refine hp.defs.record fun s hs => ?_
  obtain ⟨b, hb, hs⟩ := List.mem_flatMap.1 hs
  exact (hblocks b hb).stmts s hs

/-- A visit records the blocks of its run, and nothing else. -/
theorem irreducible_visit (htask : task.Unnamed) {p : Progress} {v : Visit}
    (hv : nextVisit? task p = some v) (hp : p.Irreducible) : v.after.Irreducible := by
  obtain ⟨rest, -, hbefore, hvisit⟩ := nextVisit?_eq_some_iff.1 hv
  obtain ⟨out, session, found, tally, hrun, -, hafter⟩ := visit_eq_ok hvisit
  rw [hbefore] at hrun hafter
  obtain ⟨hdefs, htaken⟩ := irreducible_run htask hp hrun
  rw [hafter]
  exact ⟨hdefs, htaken⟩

/-- Every block is classified by irreducible definitions. -/
theorem Meets.irreducible (htask : task.Unnamed) {entry : Word} {defs : Definitions} {b : Block}
    (h : Meets task entry defs b) : defs.Irreducible := by
  obtain ⟨visits, p, addr, regs, rest, out, session, hmakes, -, -, hrun, -, rfl⟩ := h
  have hp : p.Irreducible := hmakes.preserves (fun _ _ => irreducible_visit htask)
    ⟨fun _ _ hmem => absurd hmem List.not_mem_nil, rfl⟩
  exact (irreducible_run htask hp hrun).1

end Explore

/-! ### Classification -/

/-- The instruction pointer of a block is a choice between the return
address and `next`. -/
def Candidate.MayReturn (c : Candidate) (cond : Value) (next : Word) : Prop :=
  ∃ ip onTrue onFalse, c.ip? = some ip ∧
    c.setting.defs.app? ip = some (.select cond onTrue onFalse) ∧
    (c.setting.abs onTrue = .returnAddr ∧ c.setting.abs onFalse ≠ .returnAddr ∧
        c.address? onFalse = some next ∨
      c.setting.abs onFalse = .returnAddr ∧ c.setting.abs onTrue ≠ .returnAddr ∧
        c.address? onTrue = some next)

/-- The rule for conditional returns fails in one of two ways. -/
theorem Rule.conditionalReturn_eq_error {c : Candidate} {e : ClassifyError}
    (h : conditionalReturn.apply c = .error e) :
    ∃ cond next, c.MayReturn cond next ∧
      (c.setting.image.isExecutable next = false ∧ e = .notExecutable next ∨
        c.setting.feasible cond ≠ .both ∧ e = .infeasibleBranch (c.setting.feasible cond)) := by
  simp only [conditionalReturn] at h
  split at h
  · cases h
  · rename_i cond onTrue onFalse hchoice
    obtain ⟨ip, hip, happ⟩ := Candidate.ipChoice?_eq_some_iff.1 hchoice
    split at h
    · cases h
    · rename_i hdiffer
      split at h
      · cases h
      · rename_i next hnext
        have hreturns : c.MayReturn cond next := by
          refine ⟨ip, onTrue, onFalse, hip, happ, ?_⟩
          -- Exactly one of the arms returns, and the other one leads to the next
          -- address.
          by_cases htrue : c.setting.abs onTrue = .returnAddr
          · refine Or.inl ⟨htrue, fun hfalse => hdiffer (by simp [htrue, hfalse]), ?_⟩
            simpa [htrue] using hnext
          · have hfalse : c.setting.abs onFalse = .returnAddr := by
              by_contra hfalse
              exact hdiffer (by simp [htrue, hfalse])
            refine Or.inr ⟨hfalse, htrue, ?_⟩
            simpa [htrue] using hnext
        -- The two checks that are left are the two ways to fail.
        refine ⟨cond, next, hreturns, ?_⟩
        split at h
        · rename_i hexec
          cases h
          exact Or.inl ⟨by simpa using hexec, rfl⟩
        · split at h
          · rename_i hfeasible
            cases h
            exact Or.inr ⟨hfeasible, rfl⟩
          · cases h

namespace Chain

/-- Only the rule for conditional returns reports errors. -/
theorem firstMatch_eq_error {rules : List Rule}
    (hrules : rules = Rule.standard ∨ rules = Rule.conditionalReturn :: Rule.standard)
    {c : Candidate} {e : ClassifyError} (h : firstMatch c rules = .error e) :
    Rule.conditionalReturn.apply c = .error e := by
  by_contra happly
  rcases hrules with rfl | rfl
  · exact firstMatch_standard_ne_error e h
  · exact firstMatch_cons_ne_error happly (firstMatch_standard_ne_error e) h

/-- A block that cannot be classified goes on at its instruction pointer,
and the rules have reported why. -/
theorem classifyExit_eq_error {chain : Chain} {s : Setting} {b : Block} {e : ClassifyError}
    (h : chain.classifyExit s b = .error e) :
    ∃ regs, b.exit = .fetch regs ∧
      firstMatch ⟨s, b.index, b.addr, b.stmts, regs⟩ chain.rules = .error e := by
  cases hexit : b.exit with
  | branch | failed | arch =>
    simp only [classifyExit, hexit] at h
    cases h
  | fetch regs =>
    refine ⟨regs, rfl, ?_⟩
    simp only [classifyExit, hexit, classify] at h
    cases hmatch : firstMatch ⟨s, b.index, b.addr, b.stmts, regs⟩ chain.rules with
    | error e' =>
      rw [hmatch] at h
      cases e' with
      -- No match is not an error of the block: it stays unclassified.
      | noRuleMatched tried => cases h
      | notExecutable | infeasibleBranch =>
        cases h
        rfl
    | ok answer =>
      rw [hmatch] at h
      cases answer with
      | some found => cases h
      | none =>
        by_cases hfallback : chain.indirectFallback = true
        · simp only [bind, Except.bind, hfallback, if_true] at h
          cases h
        · simp only [bind, Except.bind, hfallback] at h
          cases h

end Chain

/-! ### Both together -/

/-- A condition that is not a literal leaves both arms open. -/
theorem Feasibility.ofCondition_of_unknown {cond : Value} (h : cond.bool? = none) :
    ofCondition cond = .both := by
  cases cond with
  | bool b => cases h
  | bv | reloc | initial | returnAddr | clobbered | assign => rfl

namespace Recipe

/-- Whatever is done, in whichever order and with whichever result, no
assigned application can ever be folded. -/
theorem irreducible_runAll {d : Discovery}
    (hd : ∀ b ∈ d.ledger.finished, ∀ s ∈ b.stmts, s.Irreducible) (addr : Word) (regs : RegFile)
    {actions : List Action} (hactions : ∀ a ∈ actions, a.Unnamed) :
    ∀ b ∈ (Action.runAll actions { builder := .start d addr regs }).2.builders,
      ∀ s ∈ b.emitted, s.Irreducible := by
  have hstart : (Builder.start d addr regs).Lawful .irreducible :=
    Builder.lawful_start (fun b hb => ⟨hd b hb, fun _ _ => trivial, trivial⟩) addr trivial
  have hp := Action.lawful_runAll
    (fun a ha => Action.lawful_of_unnamed BlockLaw.lenient_irreducible (hactions a ha))
    (Progress.lawful_of_builder hstart)
  exact fun b hb => (hp.builders b hb).irreducible

end Recipe

namespace Explore

/-- An exploration can only fail to classify a block that returns on a
condition and goes on outside executable memory otherwise. -/
theorem function_classify_error {task : Task} (htask : task.Unnamed)
    (hrules : task.target.chain.rules = Rule.standard ∨
      task.target.chain.rules = Rule.conditionalReturn :: Rule.standard)
    {entry : Word} {e : ClassifyError} {tally : Tally}
    (h : function task entry = (.error (.classify e), tally)) :
    ∃ defs b regs cond next, Meets task entry defs b ∧ b.exit = .fetch regs ∧
      Candidate.MayReturn ⟨task.setting defs, b.index, b.addr, b.stmts, regs⟩ cond next ∧
      task.image.isExecutable next = false ∧ e = .notExecutable next := by
  obtain ⟨defs, b, hmeets, herror⟩ := function_eq_classify_error h
  obtain ⟨regs, hexit, hmatch⟩ := Chain.classifyExit_eq_error herror
  obtain ⟨cond, next, hreturns, hcause⟩ :=
    Rule.conditionalReturn_eq_error (Chain.firstMatch_eq_error hrules hmatch)
  refine ⟨defs, b, regs, cond, next, hmeets, hexit, hreturns, ?_⟩
  rcases hcause with hnext | ⟨hfeasible, -⟩
  · exact hnext
  · -- The condition stands in a recorded choice, so it is not a literal.
    obtain ⟨ip, onTrue, onFalse, -, happ, -⟩ := hreturns
    have hfold := (hmeets.irreducible htask).app? happ
    exact absurd (Feasibility.ofCondition_of_unknown (App.fold_select_eq_none hfold).1) hfeasible

end Explore

/-- Construction never leaves behind an application that could be folded.
An exploration therefore never finds a conditional return one side of
which cannot be taken, and it fails to classify a block only for the one
other reason there is. -/
theorem irreducible_hence_feasible :
    (∀ (d : Discovery) (addr : Word) (regs : RegFile) (actions : List Recipe.Action),
      (∀ b ∈ d.ledger.finished, ∀ s ∈ b.stmts, s.Irreducible) → (∀ a ∈ actions, a.Unnamed) →
      ∀ b ∈ (Recipe.Action.runAll actions { builder := .start d addr regs }).2.builders,
        (∀ id ty app, Stmt.assign id ty (.app app) ∈ b.emitted → app.fold = none) ∧
        ∀ id ty cond onTrue onFalse,
          Stmt.assign id ty (.app (.select cond onTrue onFalse)) ∈ b.emitted →
            cond.bool? = none ∧ (onTrue = onFalse → onTrue.isClobbered = true)) ∧
    ∀ (task : Explore.Task) (entry : Word), task.Unnamed →
      (task.target.chain.rules = Rule.standard ∨
        task.target.chain.rules = Rule.conditionalReturn :: Rule.standard) →
      ∀ e tally, Explore.function task entry = (.error (.classify e), tally) →
        (∀ feasibility, e ≠ .infeasibleBranch feasibility) ∧
        ∃ defs b regs cond next, Explore.Meets task entry defs b ∧ b.exit = .fetch regs ∧
          Candidate.MayReturn ⟨task.setting defs, b.index, b.addr, b.stmts, regs⟩ cond next ∧
          task.image.isExecutable next = false ∧ e = .notExecutable next := by
  constructor
  · intro d addr regs actions hd hactions b hb
    have hemitted := Recipe.irreducible_runAll hd addr regs hactions b hb
    exact ⟨fun _ _ _ hs => hemitted _ hs,
      fun _ _ _ _ _ hs => App.fold_select_eq_none (hemitted _ hs)⟩
  · intro task entry htask hrules e tally h
    obtain ⟨defs, b, regs, cond, next, hmeets, hexit, hreturns, hexec, rfl⟩ :=
      Explore.function_classify_error htask hrules h
    exact ⟨fun _ heq => (by cases heq), defs, b, regs, cond, next, hmeets, hexit, hreturns, hexec,
      rfl⟩

/-- A flag decides between returning and going on outside of memory. -/
def strayRecipe : Recipe :=
  .step (.bind "next" (.select (.leaf (.reg 4)) (.leaf (.reg 2)) (.leaf (.value (.bv 32 0x9000)))))
    (.step (.save "here") (.step (.set 0 (.leaf (.temp "next"))) (.step (.restore "here")
      (.step (.set 0 (.leaf (.temp "next"))) .done))))

/-- Execution starts at the one instruction, and register 2 holds the
return address. -/
def strayTask : Explore.Task where
  target :=
    { machine := Explore.diamondMachine
      recognizers := .linked Explore.diamondMachine
      entryValues := [(2, .returnAddr 32)]
      chain := .withConditionalReturn }
  isa :=
    { Instr := UInt8
      decode := fun bytes _ => bytes.head?.map (·, 1)
      recipe := fun _ _ _ => strayRecipe }
  image := .ofCode .little 0x1000 [1]
  known := []

/-- The one instruction, carried out by itself. -/
def strayActions : List Recipe.Action :=
  [.perform .outermost ⟨⟨Explore.diamondMachine, strayTask.image, 0x1000, 1⟩, strayRecipe, []⟩]

/-- What comes of it from the start of a run. -/
def strayRun : Recipe.Progress :=
  (Recipe.Action.runAll strayActions
    { builder := .start {} 0x1000 (strayTask.target.entryState 0x1000) }).2

/-- The recipe assigns the choice before it goes back, and the assignment
stays irreducible. The exploration then stops at the address outside. -/
theorem irreducible_hence_feasible_stray :
    (Stmt.assign 0 (.bv 32)
        (.app (.select (.initial 4 .bool) (.returnAddr 32) (.bv 32 0x9000))) ∈
          strayRun.builder.emitted ∧
      ∀ b ∈ strayRun.builders, ∀ id ty app,
        Stmt.assign id ty (.app app) ∈ b.emitted → app.fold = none) ∧
    (∃ tally, Explore.function strayTask 0x1000 =
      (.error (.classify (.notExecutable 0x9000)), tally)) ∧
    ∃ defs b regs cond, Explore.Meets strayTask 0x1000 defs b ∧ b.exit = .fetch regs ∧
      Candidate.MayReturn ⟨strayTask.setting defs, b.index, b.addr, b.stmts, regs⟩ cond 0x9000 ∧
      strayTask.image.isExecutable 0x9000 = false := by
  have hunnamed : strayRecipe.AllSteps Recipe.Step.Unnamed :=
    ⟨trivial, trivial, trivial, trivial, trivial, trivial⟩
  obtain ⟨tally, hfunction⟩ : ∃ tally, Explore.function strayTask 0x1000 =
      (.error (.classify (.notExecutable 0x9000)), tally) := by
    have hfails : (Explore.function strayTask 0x1000).1 =
        .error (.classify (.notExecutable 0x9000)) := by decide +kernel
    generalize Explore.function strayTask 0x1000 = answer at hfails
    exact ⟨answer.2, Prod.ext hfails rfl⟩
  -- The general statement gives the block at which the exploration has failed.
  obtain ⟨-, defs, b, regs, cond, next, hmeets, hexit, hreturns, hexec, heq⟩ :=
    irreducible_hence_feasible.2 strayTask 0x1000 (fun _ _ _ => hunnamed) (Or.inr rfl) _ _ hfunction
  cases heq
  have hactions : ∀ a ∈ strayActions, a.Unnamed := by
    intro a ha
    rw [strayActions, List.mem_singleton] at ha
    rw [ha]
    exact hunnamed
  have hrun : ∀ b ∈ strayRun.builders, ∀ id ty app,
      Stmt.assign id ty (.app app) ∈ b.emitted → app.fold = none := by
    intro b hb
    rw [strayRun] at hb
    exact (irreducible_hence_feasible.1 {} 0x1000 (strayTask.target.entryState 0x1000)
      strayActions (fun _ h => absurd h List.not_mem_nil) hactions b hb).1
  refine ⟨⟨by decide +kernel, hrun⟩, ?_⟩
  exact ⟨⟨tally, hfunction⟩, defs, b, regs, cond, hmeets, hexit, hreturns, hexec⟩

end FlowRecovery
