import FlowRecovery.Explore
import FlowRecovery.Proofs.Builder

/-!
# `FlowRecovery.Proofs.Explore`: what an exploration does, run by run

An exploration is a sequence of runs. Each one takes an address off the
queue, disassembles from there and classifies what comes out.

- `findings` says what a run finds, without the bookkeeping around it;
- `visit_eq_ok` says that a run records exactly that, and queues the
  successors that are new;
- `nextVisit?` is the next run of an exploration, if it succeeds;
- `function_cases` says what is reported of an exploration that has
  ended.
-/

set_option autoImplicit false

namespace FlowRecovery

/-- What is counted when a block is classified. -/
def Chain.counted (chain : Chain) (s : Setting) (b : Block) (tally : Tally) : Tally :=
  let tally := if chain.isUnexplained s b then tally.countClassifyFailure else tally
  match chain.classifyExit s b with
  | .ok block => tally.countClassified block.flow.kind
  | .error _ => tally

/-- Classification gives the flow of the block and counts it. -/
theorem Chain.classifyBlock_apply (chain : Chain) (s : Setting) (b : Block) (tally : Tally) :
    chain.classifyBlock s b tally = (chain.classifyExit s b, chain.counted s b tally) := by
  unfold Chain.classifyBlock Chain.counted
  cases chain.isUnexplained s b <;> cases chain.classifyExit s b <;> rfl

/-- Counting does not change how a block is classified. -/
theorem Chain.classifyBlock_fst (chain : Chain) (s : Setting) (b : Block) (tally : Tally) :
    (chain.classifyBlock s b tally).1 = chain.classifyExit s b := by
  rw [Chain.classifyBlock_apply]

/-- Each result comes from one of the arguments. -/
theorem exists_of_mem_mapM {α β : Type} {f : α → Option β} {xs : List α} {ys : List β}
    (h : xs.mapM f = some ys) {y : β} (hy : y ∈ ys) : ∃ x ∈ xs, f x = some y := by
  induction xs generalizing ys with
  | nil =>
    cases h
    cases hy
  | cons x xs ih =>
    rw [List.mapM_cons] at h
    obtain ⟨first, hfirst, h⟩ := Option.bind_eq_some_iff.1 h
    obtain ⟨others, hothers, h⟩ := Option.bind_eq_some_iff.1 h
    cases h
    cases hy with
    | head => exact ⟨x, List.mem_cons_self, hfirst⟩
    | tail _ hy =>
      obtain ⟨x', hx', hf⟩ := ih hothers hy
      exact ⟨x', List.mem_cons_of_mem x hx', hf⟩

namespace Explore

/-! ### One run -/

/-- The record of definitions once these blocks have been added. -/
def withBlocks (defs : Definitions) (blocks : List Block) : Definitions :=
  blocks.foldl (fun defs b => defs.record b.stmts) defs

/-- A block as it is recorded, if it can be classified. -/
def classified? (task : Task) (defs : Definitions) (b : Block) : Option FlowBlock :=
  (task.target.chain.classifyExit (task.setting defs) b).toOption.map (finish task)

/-- The blocks that a run from `addr` finds. -/
def findings (task : Task) (p : Progress) (addr : Word) (regs : RegFile) :
    Option (List FlowBlock) :=
  match (Disassembly.run task.source task.limits.maxInstructions addr regs p.session).1 with
  | .ok out => out.blocks.mapM (classified? task (withBlocks p.defs out.blocks))
  | .error _ => none

/-- The state once `found` has been recorded: only the counts are left
open. -/
def Progress.withFound (task : Task) (p : Progress) (tally : Tally) (found : List FlowBlock) :
    Progress :=
  { p with
    session.tally := tally
    worklist := p.worklist ++ found.flatMap (newWork task p.defs p.visited)
    blocks := p.blocks ++ found
    newFunctions := p.newFunctions ++ found.flatMap FlowBlock.newFunctions }

/-- What is recorded in two parts is recorded as one. -/
theorem Progress.withFound_withFound (task : Task) (p : Progress) (tally tally' : Tally)
    (first second : List FlowBlock) :
    (p.withFound task tally first).withFound task tally' second =
      p.withFound task tally' (first ++ second) := by
  simp only [Progress.withFound, List.flatMap_append, List.append_assoc]

/-- A block that can be classified is recorded, together with its
successors and what it calls. -/
theorem visitBlock_of_ok {task : Task} {p : Progress} {b : Block} {raw : FlowBlock}
    (h : task.target.chain.classifyExit (task.setting p.defs) b = .ok raw) :
    visitBlock task b p = (.ok (), p.withFound task
      (task.target.chain.counted (task.setting p.defs) b p.session.tally) [finish task raw]) := by
  rw [visitBlock, Chain.classifyBlock_apply, h]
  simp only [Progress.withFound, List.flatMap_cons, List.flatMap_nil, List.append_nil]

/-- A block that cannot be classified ends the run, and has been counted
nevertheless. -/
theorem visitBlock_of_error {task : Task} {p : Progress} {b : Block} {cause : ClassifyError}
    (h : task.target.chain.classifyExit (task.setting p.defs) b = .error cause) :
    visitBlock task b p = (.error (.classify cause), { p with
      session.tally := task.target.chain.counted (task.setting p.defs) b p.session.tally }) := by
  rw [visitBlock, Chain.classifyBlock_apply, h]

/-- One block is classified and recorded. -/
theorem visitBlock_eq_ok {task : Task} {b : Block} {p p' : Progress}
    (h : visitBlock task b p = (.ok (), p')) :
    ∃ found tally, classified? task p.defs b = some found ∧
      p' = p.withFound task tally [found] := by
  cases hb : task.target.chain.classifyExit (task.setting p.defs) b with
  | error e =>
    rw [visitBlock_of_error hb] at h
    cases h
  | ok raw =>
    rw [visitBlock_of_ok hb] at h
    cases h
    refine ⟨finish task raw, _, ?_, rfl⟩
    rw [classified?, hb]
    rfl

/-- So are the blocks of a run, in order. -/
theorem visitBlocks_eq_ok {task : Task} {blocks : List Block} {p p' : Progress}
    (h : blocks.forM (visitBlock task) p = (.ok (), p')) :
    ∃ found tally, blocks.mapM (classified? task p.defs) = some found ∧
      p' = p.withFound task tally found := by
  induction blocks generalizing p with
  | nil =>
    cases h
    refine ⟨[], p'.session.tally, rfl, ?_⟩
    simp only [Progress.withFound, List.flatMap_nil, List.append_nil]
  | cons b rest ih =>
    have hbind : (visitBlock task b >>= fun _ => rest.forM (visitBlock task)) p = (.ok (), p') := h
    obtain ⟨⟨⟩, q, hb, hrest⟩ := bind_eq_ok_iff.1 hbind
    obtain ⟨block, tally, hblock, rfl⟩ := visitBlock_eq_ok hb
    obtain ⟨found, tally', hfound, rfl⟩ := ih hrest
    refine ⟨block :: found, tally', ?_, ?_⟩
    · have hdefs : (p.withFound task tally [block]).defs = p.defs := rfl
      rw [hdefs] at hfound
      rw [List.mapM_cons, hblock, hfound]
      rfl
    · exact p.withFound_withFound task tally tally' [block] found

/-- The state once the blocks of a run have been disassembled and what
they assign has been recorded. -/
def Progress.withRun (p : Progress) (out : Disassembly) (session : Disassembly.Session) :
    Progress :=
  { p with
    session
    failures := p.failures ++ out.failure.toList
    defs := withBlocks p.defs out.blocks }

/-- A run that succeeds is followed by the classification of its blocks. -/
theorem visit_of_run_eq_ok {task : Task} {addr : Word} {regs : RegFile} {p : Progress}
    {out : Disassembly} {session : Disassembly.Session}
    (h : Disassembly.run task.source task.limits.maxInstructions addr regs p.session =
      (.ok out, session)) :
    visit task addr regs p = out.blocks.forM (visitBlock task) (p.withRun out session) := by
  rw [visit, bind_run]
  simp only [h]
  rfl

/-- A run that fails leaves its session behind, and nothing else. -/
theorem visit_of_run_eq_error {task : Task} {addr : Word} {regs : RegFile} {p : Progress}
    {e : BuildError} {session : Disassembly.Session}
    (h : Disassembly.run task.source task.limits.maxInstructions addr regs p.session =
      (.error e, session)) :
    visit task addr regs p = (.error (.build e), { p with session }) := by
  rw [visit, bind_run]
  simp only [h]
  rfl

/-- A run that succeeds records what it finds. -/
theorem visit_eq_ok {task : Task} {addr : Word} {regs : RegFile} {p p' : Progress}
    (h : visit task addr regs p = (.ok (), p')) :
    ∃ out session found tally,
      Disassembly.run task.source task.limits.maxInstructions addr regs p.session =
        (.ok out, session) ∧
      out.blocks.mapM (classified? task (withBlocks p.defs out.blocks)) = some found ∧
      p' = Progress.withFound task
        { p with
          session
          failures := p.failures ++ out.failure.toList
          defs := withBlocks p.defs out.blocks } tally found := by
  cases hrun : Disassembly.run task.source task.limits.maxInstructions addr regs p.session with
  | mk result session =>
    cases result with
    | error e =>
      rw [visit_of_run_eq_error hrun] at h
      cases h
    | ok out =>
      rw [visit_of_run_eq_ok hrun] at h
      obtain ⟨found, tally, hfound, hp'⟩ := visitBlocks_eq_ok h
      exact ⟨out, session, found, tally, rfl, hfound, hp'⟩

/-- What a successful run adds to the blocks is what it finds. -/
theorem findings_of_visit {task : Task} {addr : Word} {regs : RegFile} {p p' : Progress}
    (h : visit task addr regs p = (.ok (), p')) :
    ∃ found, findings task p addr regs = some found ∧ p'.blocks = p.blocks ++ found ∧
      p'.visited = p.visited ∧ p'.truncated = p.truncated ∧
      p'.worklist = p.worklist ++ found.flatMap (newWork task p'.defs p.visited) := by
  obtain ⟨out, session, found, tally, hrun, hfound, rfl⟩ := visit_eq_ok h
  refine ⟨found, ?_, rfl, rfl, rfl, rfl⟩
  rw [findings, hrun]
  exact hfound

/-! ### Run after run -/

/-- The state once `addr` has been taken off the queue. -/
def Progress.visiting (p : Progress) (addr : Word) (rest : List (Word × RegFile)) : Progress :=
  { p with visited := addr :: p.visited, worklist := rest }

/-- One run of an exploration: where it starts, and the state before and
after it. -/
structure Visit where
  addr : Word
  regs : RegFile
  before : Progress
  after : Progress

/-- The blocks that were recorded. -/
def Visit.blocks (v : Visit) : List FlowBlock :=
  v.after.blocks.drop v.before.blocks.length

/-- The next run, if there is one and it succeeds. -/
def nextVisit? (task : Task) (p : Progress) : Option Visit :=
  match nextUnvisited? p.visited p.worklist with
  | none => none
  | some ((addr, regs), rest) =>
    match visit task addr regs (p.visiting addr rest) with
    | (.ok (), after) => some { addr, regs, before := p.visiting addr rest, after }
    | (.error _, _) => none

/-- The next run, in words: it starts with the first address of the queue
that has not been visited, and it succeeds. -/
theorem nextVisit?_eq_some_iff {task : Task} {p : Progress} {v : Visit} :
    nextVisit? task p = some v ↔
      ∃ rest, nextUnvisited? p.visited p.worklist = some ((v.addr, v.regs), rest) ∧
        v.before = p.visiting v.addr rest ∧
        visit task v.addr v.regs v.before = (.ok (), v.after) := by
  unfold nextVisit?
  constructor
  · intro h
    split at h
    · cases h
    · rename_i addr regs rest hnext
      split at h
      · rename_i after hvisit
        cases h
        exact ⟨rest, hnext, rfl, hvisit⟩
      · cases h
  · rintro ⟨rest, hnext, hbefore, hvisit⟩
    obtain ⟨addr, regs, before, after⟩ := v
    simp only at hnext hbefore hvisit
    rw [hbefore] at hvisit
    simp only [hnext, hvisit, hbefore]

/-- Where the exploration of a function starts. -/
def atEntry (task : Task) (entry : Word) : Progress :=
  { worklist := [(entry, task.target.entryState entry)] }

/-- What has been found, as a function. -/
def Progress.function (p : Progress) (entry : Word) : Function where
  entry
  blocks := p.blocks
  newFunctions := sortedAddresses (p.newFunctions.filter (· ≠ entry))
  failures := p.failures
  truncated := p.truncated

/-- What is reported of an exploration that has ended. -/
def report (entry : Word) :
    Except ExploreError Unit × Progress → Except ExploreError Function × Tally
  | (.error e, p) => (.error e, p.session.tally)
  | (.ok (), p) => (.ok (p.function entry), p.session.tally.countFunction p.blocks.length)

/-- From an executable entry, what is reported is the end of the
exploration. -/
theorem function_eq_report {task : Task} {entry : Word}
    (hentry : task.image.isExecutable entry = true) :
    function task entry =
      report entry (follow task task.limits.maxBlocks (atEntry task entry)) := by
  unfold function
  rw [if_neg (by simp [hentry])]
  cases hfollow : follow task task.limits.maxBlocks (atEntry task entry) with
  | mk result p =>
    have hsame : follow task task.limits.maxBlocks
        { worklist := [(entry, task.target.entryState entry)] } = (result, p) := hfollow
    simp only [hsame]
    cases result with
    | error e => rfl
    | ok u => rfl

/-- The exploration of a function does not start, or it fails, or its
result is what has been found when it stops. -/
theorem function_cases (task : Task) (entry : Word) :
    function task entry = (.error (.unmappedEntry entry), {}) ∨
    (∃ e p, follow task task.limits.maxBlocks (atEntry task entry) = (.error e, p) ∧
      function task entry = (.error e, p.session.tally)) ∨
    ∃ p, follow task task.limits.maxBlocks (atEntry task entry) = (.ok (), p) ∧
      function task entry =
        (.ok (p.function entry), p.session.tally.countFunction p.blocks.length) := by
  by_cases hentry : task.image.isExecutable entry = true
  · rw [function_eq_report hentry]
    cases follow task task.limits.maxBlocks (atEntry task entry) with
    | mk result p =>
      cases result with
      | error e => exact Or.inr (Or.inl ⟨e, p, rfl, rfl⟩)
      | ok u => exact Or.inr (Or.inr ⟨p, rfl, rfl⟩)
  · exact Or.inl (if_pos (by simp [hentry]))

/-- A function is what has been found when an exploration stops, and it is
counted then. -/
theorem follow_of_function {task : Task} {entry : Word} {f : Function} {tally : Tally}
    (h : function task entry = (.ok f, tally)) :
    ∃ p, follow task task.limits.maxBlocks (atEntry task entry) = (.ok (), p) ∧
      f = p.function entry ∧ tally = p.session.tally.countFunction p.blocks.length := by
  rcases function_cases task entry with hfunction | ⟨e, p, -, hfunction⟩ | ⟨p, hfollow, hfunction⟩
  · rw [h] at hfunction
    cases hfunction
  · rw [h] at hfunction
    cases hfunction
  · rw [h] at hfunction
    cases hfunction
    exact ⟨p, hfollow, rfl, rfl⟩

/-- If a block could not be classified, the exploration has failed with
that error. -/
theorem function_eq_error {task : Task} {entry : Word} {cause : ClassifyError} {tally : Tally}
    (h : function task entry = (.error (.classify cause), tally)) :
    ∃ p, follow task task.limits.maxBlocks (atEntry task entry) = (.error (.classify cause), p) ∧
      tally = p.session.tally := by
  rcases function_cases task entry with hfunction | ⟨e, p, hfollow, hfunction⟩ | ⟨p, -, hfunction⟩
  · rw [h] at hfunction
    cases hfunction
  · rw [h] at hfunction
    cases hfunction
    exact ⟨p, hfollow, rfl⟩
  · rw [h] at hfunction
    cases hfunction

end Explore

end FlowRecovery
