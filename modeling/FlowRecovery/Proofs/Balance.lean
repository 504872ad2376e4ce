import FlowRecovery.Proofs.Closure
import FlowRecovery.Proofs.Irreducible
import Mathlib.Data.List.Nodup

/-!
# `FlowRecovery.Proofs.Balance`: what is counted adds up

Blocks are counted when a run is disassembled, and again one by one when
they are classified. In between, some of them are waiting. So the
invariant of an exploration (`Progress.Balanced`) has the list of blocks
that wait: a run adds its blocks to the list, and classifying a block
takes it off. A function is done when nothing waits, and then the counts
agree (`function_balanced`). If a block cannot be classified, it still
waits, and the counts differ.

Decoding failures are counted once for a run. That this is also the
number of failed blocks rests on a law for blocks: construction closes no
block as failed, unless a recipe does so itself (`BlockLaw.unfailed`). So
the one failed block of a run is the one that the run itself closes.

A rule is to succeed with a flow that tells where control goes, or to
decline (`Chain.Explains`), and every rule of the library does so
(`Rule.explains`). But a rule is any function, and it may call a block
failed or unclassified itself. Such a block is of that kind and no failure
has been counted for it, so the equations for these two kinds have a term
for what rules have labelled (`labels`). It is zero for rules that keep to
the protocol.
-/

set_option autoImplicit false

namespace FlowRecovery

/-! ### Published figures -/

namespace FlowKind

/-- All kinds of flows. -/
def all : List FlowKind :=
  [.fallthrough, .branch, .call, .ret, .conditionalReturn, .tailCall, .indirectJump, .arch,
    .failed, .unclassified]

/-- No kind is missing. -/
theorem mem_all (k : FlowKind) : k ∈ all := by
  cases k <;> decide

/-- The name that the classified blocks of this kind are published
under. -/
def metric (k : FlowKind) : String :=
  Metric.blocksClassified.name ++ "\x7bkind=" ++ k.label ++ "\x7d"

/-- The names of different kinds differ, so that no two counts are
published as one. -/
theorem metric_injective {k l : FlowKind} (h : k.metric = l.metric) : k = l := by
  have hnodup : (all.map metric).Nodup := by decide +kernel
  exact List.inj_on_of_nodup_map hnodup (mem_all k) (mem_all l) h

/-- A count for each kind, added up over all kinds. -/
def sum (count : FlowKind → Nat) : Nat :=
  all.foldr (fun k total => count k + total) 0

/-- Every entry is of one of the kinds. -/
theorem sum_count (kinds : List FlowKind) : sum kinds.count = kinds.length := by
  induction kinds with
  | nil => rfl
  | cons k rest ih =>
    rw [List.length_cons, ← ih]
    -- Each kind adds one to its own count and nothing to the others.
    cases k <;> simp [sum, all, List.count_cons] <;> omega

end FlowKind

namespace Tally

variable {t : Tally} {name : String} {n : Nat}

/-- The total that is published under a name. What has counted nothing is
not listed. -/
def total (t : Tally) (name : String) : Nat :=
  (t.counters.lookup name).getD 0

/-- The totals that have no label. -/
def unlabelled (t : Tally) : List (String × Nat) :=
  [(Metric.blocksDisassembled.name, t.blocksDisassembled),
    (Metric.decodeFailures.name, t.decodeFailures),
    (Metric.classifyFailures.name, t.classifyFailures),
    (Metric.functionsExplored.name, t.functionsExplored)]

/-- What is published are the totals that are not zero, and a total for
each kind that has been met. -/
theorem mem_counters {entry : String × Nat} :
    entry ∈ t.counters ↔ (entry ∈ t.unlabelled ∧ entry.2 ≠ 0) ∨
      ∃ k ∈ t.classified, (k.metric, t.classifiedAs k) = entry := by
  rw [show t.counters = t.unlabelled.filter (·.2 ≠ 0) ++
    t.kinds.map fun k => (k.metric, t.classifiedAs k) from rfl]
  simp [kinds]

/-- A total is what all entries of its name say. -/
theorem total_eq (hsame : ∀ k, (name, k) ∈ t.counters → k = n)
    (hlisted : n ≠ 0 → (name, n) ∈ t.counters) : t.total name = n := by
  rw [total]
  cases hlookup : t.counters.lookup name with
  | some k => exact hsame k (mem_of_lookup_eq_some hlookup)
  | none =>
    by_contra hn
    have hmem := hlisted fun h => hn h.symm
    simpa using List.lookup_eq_none_iff.1 hlookup _ hmem

/-- No label makes the name of a kind the name of another total. -/
theorem metric_ne_of_mem_unlabelled (k : FlowKind) {entry : String × Nat}
    (h : entry ∈ t.unlabelled) : k.metric ≠ entry.1 := by
  have hnames : ∀ k ∈ FlowKind.all, ∀ m ∈ [Metric.blocksDisassembled, Metric.decodeFailures,
      Metric.classifyFailures, Metric.functionsExplored], k.metric ≠ m.name := by decide +kernel
  simp only [unlabelled, List.mem_cons, List.not_mem_nil, or_false] at h
  rcases h with rfl | rfl | rfl | rfl <;> exact hnames k k.mem_all _ (by simp)

/-- The total that is published under a name without label is the one that
was counted. -/
theorem total_of_mem_unlabelled (h : (name, n) ∈ t.unlabelled) : t.total name = n := by
  refine total_eq (fun k hk => ?_) fun hn => mem_counters.2 (Or.inl ⟨h, hn⟩)
  rcases mem_counters.1 hk with ⟨hk, -⟩ | ⟨kind, -, heq⟩
  · simp only [unlabelled, List.mem_cons, List.not_mem_nil, or_false, Prod.mk.injEq] at h hk
    rcases h with ⟨rfl, rfl⟩ | ⟨rfl, rfl⟩ | ⟨rfl, rfl⟩ | ⟨rfl, rfl⟩ <;>
      simpa [Metric.blocksDisassembled, Metric.decodeFailures, Metric.classifyFailures,
        Metric.functionsExplored] using hk
  · exact absurd (Prod.mk.inj heq).1 (metric_ne_of_mem_unlabelled kind h)

/-- The total that is published for a kind is the number of blocks of that
kind. -/
theorem total_metric (t : Tally) (k : FlowKind) : t.total k.metric = t.classifiedAs k := by
  refine total_eq (fun n hn => ?_) fun hn => mem_counters.2 (Or.inr ⟨k, ?_, rfl⟩)
  · rcases mem_counters.1 hn with ⟨hmem, -⟩ | ⟨kind, -, heq⟩
    · exact absurd rfl (metric_ne_of_mem_unlabelled k hmem)
    · obtain ⟨hmetric, hcount⟩ := Prod.mk.inj heq
      rw [← hcount, FlowKind.metric_injective hmetric]
  · by_contra hk
    exact hn (List.count_eq_zero.2 hk)

/-- Over all kinds, the published totals are the number of classified
blocks. -/
theorem sum_total (t : Tally) :
    FlowKind.sum (fun k => t.total k.metric) = t.classified.length := by
  rw [← FlowKind.sum_count]
  exact congrArg FlowKind.sum (funext t.total_metric)

end Tally

/-! ### Failed blocks -/

/-- Does the block end where decoding failed? -/
def Exit.isFailed : Exit → Bool
  | .failed .. => true
  | .fetch _ | .branch .. | .arch .. => false

/-- No block ends where decoding failed. -/
def BlockLaw.unfailed : BlockLaw where
  stmt _ := True
  regs _ := True
  exit e := e.isFailed = false
  writable _ := True
  app _ _ _ _ _ := trivial
  load _ _ _ := trivial
  prim _ _ := trivial
  unnamed _ _ := trivial
  set _ _ _ _ _ _ _ := trivial
  fetch _ := rfl
  branch _ _ _ := rfl
  arch _ _ _ := rfl

/-- The step does not itself close the block as one that has failed. -/
def Recipe.Step.ClaimsNoFailure (s : Step) : Prop :=
  ∀ addr reason, s ≠ .close (.failed addr reason)

/-- Steps that claim no failure keep the law that no block has failed. -/
theorem Recipe.Step.ClaimsNoFailure.lawful {s : Step} (h : s.ClaimsNoFailure) :
    s.Lawful .unfailed := by
  cases s with
  | close c =>
    cases c with
    | failed addr reason => exact absurd rfl (h addr reason)
    | fetch | branch | arch => trivial
  | bind | load | prim | set | setIp | advance | store | emit | arch | fail | moveTo | save
  | restore | look => trivial

/-- Where the law holds, no finished block has failed. -/
theorem Builder.Lawful.countP_isFailed {b : Builder} (h : b.Lawful .unfailed) :
    b.ledger.finished.countP (·.exit.isFailed) = 0 := by
  refine List.countP_eq_zero.2 fun blk hblk => ?_
  simp [show blk.exit.isFailed = false from (h.finished blk hblk).exit]

namespace Disassembly

variable {src : Source} {pc : Word} {b b' : Builder}

/-- An instruction that is carried out leaves no failed block behind, and
one that fails leaves a single one. -/
theorem decodeOne_isFailed (hsrc : src.Lawful .unfailed) (hb : b.Lawful .unfailed) {after : After}
    (h : decodeOne src pc b = (.ok after, b')) :
    (b'.Lawful .unfailed ∧ ∀ e, after ≠ .closed (some e)) ∨
      ∃ e, after = .closed (some e) ∧ b'.ledger.finished.countP (·.exit.isFailed) = 1 := by
  -- Whatever the step does, no block that it has finished ends as failed.
  have hstep := lawful_step hsrc pc { b with instrAddr := pc } ⟨hb.current, hb.finished⟩
  rcases decodeOne_eq_ok_iff.1 h with
    ⟨size, b₁, hrun, hconclude⟩ | ⟨addr, reason, b₁, i, hrun, hafter, hclose⟩
  · -- The instruction was carried out, and the block is ended with a fetch at most.
    rw [hrun] at hstep
    refine Or.inl ⟨?_, ?_⟩
    · have hb' : Builder.Lawful .unfailed (conclude src pc size b₁).2 :=
        conclude_preserves Build.Lawful.closeFetch pc size b₁ hstep
      rwa [hconclude] at hb'
    · rcases conclude_eq_ok_iff.1 hconclude with
        ⟨-, rfl, -⟩ | ⟨_, -, -, rfl, -⟩ | ⟨_, _, _, -, -, -, rfl, -⟩ <;> simp
  · rw [hrun] at hstep
    refine Or.inr ⟨_, hafter, ?_⟩
    -- All blocks of the instruction are dropped, and the open one is closed as failed.
    have hundone := hstep.rollback (c := { b with instrAddr := pc }.checkpoint) hb.current
    obtain ⟨blk, -, -, l, hpush, rfl⟩ := Build.close_eq_ok_iff.1 hclose
    obtain ⟨-, rfl⟩ := Ledger.push_eq_ok_iff.1 hpush
    rw [List.countP_append, hundone.countP_isFailed]
    rfl

/-- The same for a whole run: all passes but the last leave no failed block
behind, and the last one leaves one exactly if it reports a failure. -/
theorem decodeFrom_isFailed (hsrc : src.Lawful .unfailed) (hb : b.Lawful .unfailed) {more : Nat}
    {failure : Option BuildError} (h : decodeFrom src more pc b = (.ok failure, b')) :
    b'.ledger.finished.countP (·.exit.isFailed) = failure.toList.length := by
  obtain ⟨n, pc', b₁, hpasses, hlast⟩ := decodeFrom_eq_ok h
  have hb₁ : b₁.Lawful .unfailed := by
    refine hpasses.induction (fun pc next b b' hone hb => ?_) hb
    rcases decodeOne_isFailed hsrc hb hone with ⟨hb', -⟩ | ⟨e, hafter, -⟩
    · exact hb'
    · cases hafter
  rcases hlast with ⟨-, hone⟩ | ⟨i, rfl, hclose⟩
  · rcases decodeOne_isFailed hsrc hb₁ hone with ⟨hb', hsome⟩ | ⟨e, hafter, hcount⟩
    · cases failure with
      | none => exact hb'.countP_isFailed
      | some e => exact absurd rfl (hsome e)
    · cases hafter
      exact hcount
  · -- There were enough instructions, so the block is closed behind them.
    have hb' : Builder.Lawful .unfailed (Build.close .fetch b₁).2 := Build.Lawful.closeFetch b₁ hb₁
    rw [hclose] at hb'
    exact hb'.countP_isFailed

/-- A run has a failed block exactly if it reports a failure. -/
theorem run_isFailed (hsrc : src.Lawful .unfailed) {limit : Nat} {addr : Word} {regs : RegFile}
    {s s' : Session} (hs : s.discovery.ledger.finished = []) {out : Disassembly}
    (h : run src limit addr regs s = (.ok out, s')) :
    out.blocks.countP (·.exit.isFailed) = out.failure.toList.length := by
  obtain ⟨failure, b, hdecode, rfl, -⟩ := run_eq_ok_iff.1 h
  refine decodeFrom_isFailed hsrc (Builder.lawful_start (fun blk hblk => ?_) addr trivial) hdecode
  rw [hs] at hblk
  cases hblk

end Disassembly

/-! ### Classification -/

/-- The protocol for rules: a rule explains every block that it
recognises, by a flow that tells where control goes. What it cannot explain
it leaves to others, or reports as an error. That decoding has failed, or
that no rule has matched, is not for a rule to say. -/
def Chain.Explains (chain : Chain) : Prop :=
  ∀ r ∈ chain.rules, ∀ c block, r.apply c = .ok (some block) →
    block.flow.kind ≠ .failed ∧ block.flow.kind ≠ .unclassified

namespace Rule

/-- Every rule of the library does. -/
theorem explains {r : Rule} (hr : r ∈ conditionalReturn :: standard) {c : Candidate}
    {block : FlowBlock} (h : r.apply c = .ok (some block)) :
    block.flow.kind ≠ .failed ∧ block.flow.kind ≠ .unclassified := by
  simp only [standard, List.mem_cons, List.not_mem_nil, or_false] at hr
  -- Rule by rule, what each makes of a block it matches.
  obtain rfl | rfl | rfl | rfl | rfl | rfl := hr
  · obtain ⟨cond, onTrue, onFalse, returnsWhen, next, -, -, -, -, rfl⟩ :=
      conditionalReturn_eq_some h
    simp [Candidate.withFlow, Flow.kind]
  · obtain ⟨cond, onTrue, onFalse, t, f, -, -, -, rfl⟩ := branch_eq_some h
    simp [Candidate.withFlow, Flow.kind]
  · simp only [call, Except.ok.injEq] at h
    split at h <;> cases h
    simp [Candidate.withFlow, Flow.kind]
  · simp only [ret, Except.ok.injEq] at h
    split at h <;> cases h
    simp [Candidate.withFlow, Flow.kind]
  · simp only [tailCall, Except.ok.injEq] at h
    split at h
    · split at h <;> cases h
      simp [Candidate.withFlow, Flow.kind]
    · cases h
  · simp only [jump, Except.ok.injEq] at h
    split at h <;> cases h
    simp [Candidate.withFlow, Flow.kind]

end Rule

namespace Chain

variable {chain : Chain} {s : Setting} {b : Block} {raw : FlowBlock}

/-- For a block that ends with a fetch, unexplained means that the rules
give no answer. -/
theorem isUnexplained_of_fetch {regs : RegFile} (h : b.exit = .fetch regs) :
    chain.isUnexplained s b = (chain.classify (b.candidate s regs)).toOption.isNone := by
  simp only [isUnexplained, h, Block.candidate]
  cases chain.classify { setting := s, index := b.index, addr := b.addr, stmts := b.stmts, regs }
    with
  | ok block => rfl
  | error e => rfl

/-- The kind that the rules give a block, if it is put to them and they can
explain it. -/
def label? (chain : Chain) (s : Setting) (b : Block) : Option FlowKind :=
  match b.exit with
  | .fetch regs => (chain.classify (b.candidate s regs)).toOption.map (·.flow.kind)
  | _ => none

/-- A block is of the kind of failed blocks if it has failed to decode, and
unclassified if the rules could not explain it, or else if the rules say
so. -/
theorem count_kind (h : chain.classifyExit s b = .ok raw) (kinds : List FlowKind) :
    (raw.flow.kind :: kinds).count .failed = kinds.count .failed +
        (if b.exit.isFailed then 1 else 0) + (chain.label? s b).toList.count .failed ∧
      (raw.flow.kind :: kinds).count .unclassified = kinds.count .unclassified +
        (chain.isUnexplained s b).toNat + (chain.label? s b).toList.count .unclassified := by
  cases classifies_of_classifyExit h with
  | explained hexit hclassify =>
    rw [isUnexplained_of_fetch hexit, label?, hexit]
    simp [hclassify, Exit.isFailed, Except.toOption, List.count_cons]
  | unexplained hexit hclassify =>
    rw [isUnexplained_of_fetch hexit, label?, hexit]
    simp [hclassify, Block.withFlow, Flow.kind, Exit.isFailed, Except.toOption]
  | branch hexit | failed hexit | arch hexit =>
    rw [isUnexplained, label?, hexit]
    simp [Block.withFlow, Flow.kind, Exit.isFailed]

/-- A chain that keeps to the protocol labels no block as failed or
unclassified. Its last resort is an indirect jump, which is neither. -/
theorem label?_of_explains (hexplains : chain.Explains) (s : Setting) (b : Block) :
    chain.label? s b ≠ some .failed ∧ chain.label? s b ≠ some .unclassified := by
  unfold label?
  split
  · rename_i regs hexit
    cases hclassify : chain.classify (b.candidate s regs) with
    | error e => simp [Except.toOption]
    | ok found =>
      have hkind : found.flow.kind ≠ .failed ∧ found.flow.kind ≠ .unclassified := by
        rcases exists_of_classify hclassify with ⟨r, hr, happly⟩ | rfl
        · exact hexplains r hr _ _ happly
        · simp [Candidate.withFlow, Flow.kind]
      simpa [Except.toOption] using hkind
  · simp

/-- A block that is classified is counted under its kind, and as a failure
if the rules could not explain it. -/
theorem counted_of_ok (h : chain.classifyExit s b = .ok raw) (t : Tally) :
    chain.counted s b t =
      { t with
        classified := raw.flow.kind :: t.classified
        classifyFailures := t.classifyFailures + (chain.isUnexplained s b).toNat } := by
  rw [counted, h]
  cases chain.isUnexplained s b <;> rfl

end Chain

/-- The target's last change to a block leaves its kind alone. -/
def Target.KeepsKind (t : Target) : Prop :=
  ∀ b, (t.amend.getD id b).flow.kind = b.flow.kind

/-! ### Exploration -/

namespace Explore

variable {task : Task} {p p' : Progress} {labelled : List FlowKind}

/-- No recipe of the task itself closes a block as one that has failed. -/
def Task.ClaimsNoFailure (task : Task) : Prop :=
  ∀ instr addr size, (task.isa.recipe instr addr size).AllSteps Recipe.Step.ClaimsNoFailure

/-- Such a task keeps the law. -/
theorem Task.ClaimsNoFailure.lawful (h : task.ClaimsNoFailure) : task.source.Lawful .unfailed where
  machine _ _ := trivial
  recipes instr addr size := (h instr addr size).imp fun _ hs => hs.lawful

/-- The kinds that the rules have given the blocks of a run. -/
def Visit.labels (task : Task) (v : Visit) : List FlowKind :=
  match (Disassembly.run task.source task.limits.maxInstructions v.addr v.regs
    v.before.session).1 with
  | .ok out =>
    out.blocks.flatMap fun b => (task.target.chain.label? (task.setting v.after.defs) b).toList
  | .error _ => []

/-- The kinds that the rules have given the blocks of all these runs. -/
def labels (task : Task) (visits : List Visit) : List FlowKind :=
  visits.flatMap (Visit.labels task)

/-- What has been counted agrees with what has been found. The blocks
that wait have been disassembled and are yet to be classified, and the rules
have given `labelled` to the others. -/
structure Progress.Balanced (task : Task) (p : Progress) (waiting : List Block)
    (labelled : List FlowKind) : Prop where
  taken : p.session.discovery.ledger.finished = []
  disassembled : p.session.tally.blocksDisassembled = p.blocks.length + waiting.length
  classified : p.session.tally.classified.length = p.blocks.length
  decodeFailures : p.session.tally.decodeFailures = p.failures.length
  unexplored : p.session.tally.functionsExplored = 0 ∧ p.session.tally.functionBlocks = []
  kinds : task.target.KeepsKind →
    p.session.tally.classified = (p.blocks.map fun b => b.flow.kind).reverse
  classifyFailures : p.session.tally.classified.count .unclassified =
    p.session.tally.classifyFailures + labelled.count .unclassified
  failures : task.ClaimsNoFailure →
    p.session.tally.classified.count .failed + waiting.countP (·.exit.isFailed) =
      p.failures.length + labelled.count .failed

/-- Before the first run nothing has been counted and nothing found. -/
theorem Progress.balanced_start (worklist : List (Word × RegFile)) :
    Progress.Balanced task { worklist } [] [] where
  taken := rfl
  disassembled := rfl
  classified := rfl
  decodeFailures := rfl
  unexplored := ⟨rfl, rfl⟩
  kinds _ := rfl
  classifyFailures := rfl
  failures _ := rfl

/-- Neither the queue nor the addresses visited are counted. -/
theorem Progress.Balanced.visiting (h : p.Balanced task [] labelled) (addr : Word)
    (rest : List (Word × RegFile)) : (p.visiting addr rest).Balanced task [] labelled :=
  { h with }

/-- What is done to a block after classification does not change its kind.
-/
theorem kind_finish (h : task.target.KeepsKind) (raw : FlowBlock) :
    (finish task raw).flow.kind = raw.flow.kind := by
  obtain ⟨stmts, hpruned⟩ := pruneBlock_eq task.target.effects (task.target.amend.getD id raw)
  rw [finish, hpruned]
  exact h raw

/-- A block that is classified no longer waits. -/
theorem balanced_visitBlock {b : Block} {rest : List Block} {raw : FlowBlock}
    (h : task.target.chain.classifyExit (task.setting p.defs) b = .ok raw)
    (hp : p.Balanced task (b :: rest) labelled) :
    (p.withFound task (task.target.chain.counted (task.setting p.defs) b p.session.tally)
      [finish task raw]).Balanced task rest
        (labelled ++ (task.target.chain.label? (task.setting p.defs) b).toList) := by
  obtain ⟨hfailed, hunclassified⟩ := Chain.count_kind h p.session.tally.classified
  rw [Chain.counted_of_ok h]
  constructor
  case taken => exact hp.taken
  case decodeFailures => exact hp.decodeFailures
  case unexplored => exact hp.unexplored
  case disassembled =>
    have hcount := hp.disassembled
    simp only [List.length_cons] at hcount
    simp only [Progress.withFound, List.length_append, List.length_cons, List.length_nil]
    omega
  case classified =>
    simp [Progress.withFound, hp.classified]
  case kinds =>
    intro hkeeps
    simp [Progress.withFound, hp.kinds hkeeps, kind_finish hkeeps raw]
  case classifyFailures =>
    have hcount := hp.classifyFailures
    simp only [Progress.withFound, List.count_append, hunclassified]
    omega
  case failures =>
    -- The block is counted as failed now, and has been waiting as one until now.
    intro hclaims
    have hcount := hp.failures hclaims
    simp only [Progress.withFound, List.countP_cons, List.count_append, hfailed] at hcount ⊢
    omega

/-- Classifying all blocks of a run takes them off the list. Induction on
the blocks, from the state that the one before has left. -/
theorem balanced_visitBlocks {blocks : List Block} (hp : p.Balanced task blocks labelled)
    (h : blocks.forM (visitBlock task) p = (.ok (), p')) :
    p'.Balanced task [] (labelled ++
      blocks.flatMap fun b => (task.target.chain.label? (task.setting p.defs) b).toList) := by
  induction blocks generalizing p labelled with
  | nil =>
    cases h
    rw [List.flatMap_nil, List.append_nil]
    exact hp
  | cons b rest ih =>
    -- The loop over the blocks, one round unrolled.
    have hbind : (visitBlock task b >>= fun _ => rest.forM (visitBlock task)) p = (.ok (), p') := h
    cases hb : task.target.chain.classifyExit (task.setting p.defs) b with
    | error e =>
      rw [bind_run, visitBlock_of_error hb] at hbind
      cases hbind
    | ok raw =>
      rw [bind_apply_of_ok (visitBlock_of_ok hb)] at hbind
      have hrest := ih (balanced_visitBlock hb hp) hbind
      rw [List.append_assoc] at hrest
      exact hrest

/-- If a block cannot be classified, it has been counted only once. -/
theorem length_classified_lt {blocks : List Block} (hp : p.Balanced task blocks labelled)
    {e : ExploreError} (h : blocks.forM (visitBlock task) p = (.error e, p')) :
    p'.session.tally.classified.length < p'.session.tally.blocksDisassembled := by
  induction blocks generalizing p labelled with
  | nil => cases h
  | cons b rest ih =>
    have hbind : (visitBlock task b >>= fun _ => rest.forM (visitBlock task)) p = (.error e, p') :=
      h
    cases hb : task.target.chain.classifyExit (task.setting p.defs) b with
    | ok raw =>
      rw [bind_apply_of_ok (visitBlock_of_ok hb)] at hbind
      exact ih (balanced_visitBlock hb hp) hbind
    | error cause =>
      rw [bind_run, visitBlock_of_error hb] at hbind
      cases hbind
      -- The blocks in front have been classified, and this one has not.
      have hcount := hp.disassembled
      have hclassified := hp.classified
      rw [List.length_cons] at hcount
      cases hunexplained : task.target.chain.isUnexplained (task.setting p.defs) b <;>
        simp [Chain.counted, hb, hunexplained, Tally.countClassifyFailure] <;> omega

/-- A run makes its blocks wait. -/
theorem balanced_run {addr : Word} {regs : RegFile} {out : Disassembly}
    {session : Disassembly.Session} (hp : p.Balanced task [] labelled)
    (h : Disassembly.run task.source task.limits.maxInstructions addr regs p.session =
      (.ok out, session)) : (p.withRun out session).Balanced task out.blocks labelled := by
  have hfailed (hclaims : task.ClaimsNoFailure) :
      out.blocks.countP (·.exit.isFailed) = out.failure.toList.length :=
    Disassembly.run_isFailed hclaims.lawful hp.taken h
  obtain ⟨failure, b, -, rfl, rfl⟩ := Disassembly.run_eq_ok_iff.1 h
  -- A failure is counted once, so the count grows by the number of failures.
  have hcounted : (if failure.isSome then p.session.tally.countDecodeFailure else p.session.tally) =
      { p.session.tally with
        decodeFailures := p.session.tally.decodeFailures + failure.toList.length } := by
    cases failure <;> rfl
  rw [hcounted]
  constructor
  case taken => rfl
  case disassembled => exact congrArg (· + b.ledger.finished.length) hp.disassembled
  case classified => exact hp.classified
  case unexplored => exact hp.unexplored
  case kinds => exact hp.kinds
  case classifyFailures => exact hp.classifyFailures
  case decodeFailures =>
    simp [Progress.withRun, Tally.countDisassembled, hp.decodeFailures]
  case failures =>
    intro hclaims
    have hcount := hp.failures hclaims
    have hrun := hfailed hclaims
    simp only [Progress.withRun, Tally.countDisassembled, List.countP_nil, List.length_append]
      at hcount hrun ⊢
    omega

/-- A visit that succeeds leaves no block waiting. -/
theorem balanced_visit {v : Visit} (hp : v.before.Balanced task [] labelled)
    (h : visit task v.addr v.regs v.before = (.ok (), v.after)) :
    v.after.Balanced task [] (labelled ++ v.labels task) := by
  cases hrun : Disassembly.run task.source task.limits.maxInstructions v.addr v.regs
      v.before.session with
  | mk result session =>
    cases result with
    | error e =>
      rw [visit_of_run_eq_error hrun] at h
      cases h
    | ok out =>
      rw [visit_of_run_eq_ok hrun] at h
      obtain ⟨found, tally, -, hafter⟩ := visitBlocks_eq_ok h
      have hdefs : v.after.defs = (v.before.withRun out session).defs := by rw [hafter]; rfl
      rw [Visit.labels, hrun, hdefs]
      exact balanced_visitBlocks (balanced_run hp hrun) h

/-- Visits one after the other leave no block waiting. Induction on the
visits. -/
theorem Makes.balanced {visits : List Visit} (h : Makes task p visits p')
    (hp : p.Balanced task [] labelled) :
    p'.Balanced task [] (labelled ++ labels task visits) := by
  induction h generalizing labelled with
  | nil =>
    rw [labels, List.flatMap_nil, List.append_nil]
    exact hp
  | cons _ hv _ ih =>
    obtain ⟨rest, -, hbefore, hvisit⟩ := nextVisit?_eq_some_iff.1 hv
    have hafter := ih (balanced_visit (by rw [hbefore]; exact hp.visiting _ rest) hvisit)
    rwa [List.append_assoc] at hafter

/-- So does a whole exploration, whether it has come to its end or was cut
off. -/
theorem balanced_follow {entry : Word}
    (h : follow task task.limits.maxBlocks (atEntry task entry) = (.ok (), p)) :
    ∃ visits q, Makes task (atEntry task entry) visits q ∧ p.blocks = q.blocks ∧
      p.Balanced task [] (labels task visits) := by
  obtain ⟨visits, q, last, hmakes, hends⟩ := follow_atEntry task entry
  have hq := hmakes.balanced (Progress.balanced_start _)
  rw [List.nil_append] at hq
  rw [h] at hends
  cases hends with
  | done => exact ⟨visits, p, hmakes, rfl, hq⟩
  | cut => exact ⟨visits, q, hmakes, rfl, { hq with }⟩

/-- Rules that explain what they recognise give neither of the two kinds. -/
theorem count_labels_of_explains (hexplains : task.target.chain.Explains) (visits : List Visit) :
    (labels task visits).count .failed = 0 ∧ (labels task visits).count .unclassified = 0 := by
  have hlabels : ∀ k ∈ labels task visits, k ≠ .failed ∧ k ≠ .unclassified := by
    intro k hk
    obtain ⟨v, -, hk⟩ := List.mem_flatMap.1 hk
    unfold Visit.labels at hk
    split at hk
    · obtain ⟨b, -, hlabel⟩ := List.mem_flatMap.1 hk
      have hlabel := Option.mem_toList.1 hlabel
      obtain ⟨hfailed, hunclassified⟩ :=
        Chain.label?_of_explains hexplains (task.setting v.after.defs) b
      rw [hlabel] at hfailed hunclassified
      exact ⟨fun h => hfailed (congrArg some h), fun h => hunclassified (congrArg some h)⟩
    · cases hk
  exact ⟨List.count_eq_zero.2 fun h => (hlabels _ h).1 rfl,
    List.count_eq_zero.2 fun h => (hlabels _ h).2 rfl⟩

/-- An exploration that fails to classify a block has counted it only
once. -/
theorem length_classified_lt_of_follow {entry : Word} {cause : ClassifyError}
    (h : follow task task.limits.maxBlocks (atEntry task entry) = (.error (.classify cause), p)) :
    p.session.tally.classified.length < p.session.tally.blocksDisassembled := by
  obtain ⟨visits, q, last, hmakes, hends⟩ := follow_atEntry task entry
  have hq := hmakes.balanced (Progress.balanced_start _)
  rw [h] at hends
  cases hends with
  | @failed addr regs rest _ _ _ _ hvisit =>
    -- The last visit has failed while it classified the blocks of a run.
    have hq := hq.visiting addr rest
    cases hrun : Disassembly.run task.source task.limits.maxInstructions addr regs q.session with
    | mk result session =>
      cases result with
      | error e =>
        rw [visit_of_run_eq_error (p := q.visiting addr rest) hrun] at hvisit
        cases hvisit
      | ok out =>
        rw [visit_of_run_eq_ok (p := q.visiting addr rest) hrun] at hvisit
        exact length_classified_lt (balanced_run hq hrun) hvisit

/-- What is counted adds up.

Once a function has been explored, as many blocks have been disassembled
as have been classified, and they are the blocks of the function. They
are also its one sample, as far as 32 bits can tell. The classified
blocks of each kind are the blocks of that kind, unless the target
changes kinds afterwards. Every decoding failure has been counted. It has
closed one block, and the other failed blocks are those that a rule has
labelled so, unless a recipe claims a failure of its own. In the same way
the unclassified blocks are those that the rules could not explain, and
those that a rule has labelled so. Rules that keep to the protocol, as all
rules of the library do, label no block in either way, and then the failed
blocks are the decoding failures and the unclassified blocks the blocks
without an explanation.

If a block cannot be classified, fewer have been classified than
disassembled. -/
theorem function_balanced (task : Task) (entry : Word) :
    (∀ f tally, function task entry = (.ok f, tally) →
      ∃ visits p, Makes task (atEntry task entry) visits p ∧
        f.blocks = visits.flatMap Visit.blocks ∧
        tally.total Metric.blocksDisassembled.name = f.blocks.length ∧
        FlowKind.sum (fun k => tally.total k.metric) = f.blocks.length ∧
        (f.blocks.length < 4294967296 → tally.samples = [f.blocks.length]) ∧
        (task.target.KeepsKind →
          ∀ k, tally.total k.metric = f.blocks.countP fun b => b.flow.kind = k) ∧
        tally.total Metric.decodeFailures.name = f.failures.length ∧
        (task.target.KeepsKind → task.ClaimsNoFailure →
          (f.blocks.countP fun b => b.flow.kind = .failed) =
            f.failures.length + (labels task visits).count .failed) ∧
        (task.target.KeepsKind →
          (f.blocks.countP fun b => b.flow.kind = .unclassified) =
            tally.total Metric.classifyFailures.name +
              (labels task visits).count .unclassified) ∧
        (task.target.chain.Explains →
          (labels task visits).count .failed = 0 ∧ (labels task visits).count .unclassified = 0) ∧
        tally.total Metric.functionsExplored.name = 1) ∧
    ∀ cause tally, function task entry = (.error (.classify cause), tally) →
      FlowKind.sum (fun k => tally.total k.metric) <
        tally.total Metric.blocksDisassembled.name := by
  constructor
  · intro f tally h
    obtain ⟨p, hfollow, rfl, rfl⟩ := follow_of_function h
    obtain ⟨visits, q, hmakes, hblocks, hp⟩ := balanced_follow hfollow
    -- Kinds are counted in the order of discovery, backwards.
    have hkinds (hkeeps : task.target.KeepsKind) (k : FlowKind) :
        p.session.tally.classified.count k =
          (p.function entry).blocks.countP fun b => b.flow.kind = k := by
      rw [hp.kinds hkeeps, List.count_reverse, List.count, List.countP_map]
      rfl
    refine ⟨visits, q, hmakes, hblocks.trans hmakes.blocks_eq, ?_, ?_, fun hsize => ?_,
      fun hkeeps k => ?_, ?_, fun hkeeps hclaims => ?_, fun hkeeps => ?_,
      fun hexplains => count_labels_of_explains hexplains visits, ?_⟩
    · rw [Tally.total_of_mem_unlabelled List.mem_cons_self]
      exact hp.disassembled
    · rw [Tally.sum_total]
      exact hp.classified
    · have hmin : min p.blocks.length 0xffffffff = p.blocks.length :=
        Nat.min_eq_left (Nat.le_of_lt_succ hsize)
      simp [Tally.samples, Tally.countFunction, hp.unexplored.2, hmin, Progress.function]
    · rw [Tally.total_metric]
      exact hkinds hkeeps k
    · rw [Tally.total_of_mem_unlabelled (List.mem_cons_of_mem _ List.mem_cons_self)]
      exact hp.decodeFailures
    · rw [← hkinds hkeeps]
      exact hp.failures hclaims
    · rw [← hkinds hkeeps, Tally.total_of_mem_unlabelled
        (List.mem_cons_of_mem _ (List.mem_cons_of_mem _ List.mem_cons_self))]
      exact hp.classifyFailures
    · rw [Tally.total_of_mem_unlabelled (List.mem_cons_of_mem _ (List.mem_cons_of_mem _
        (List.mem_cons_of_mem _ List.mem_cons_self)))]
      exact congrArg (· + 1) hp.unexplored.1
  · intro cause tally h
    obtain ⟨p, hfollow, rfl⟩ := function_eq_error h
    rw [Tally.sum_total, Tally.total_of_mem_unlabelled List.mem_cons_self]
    exact length_classified_lt_of_follow hfollow

/-- A branch to an unknown instruction and to a jump that no rule
explains. -/
def lossyTask : Task where
  target :=
    { machine := diamondMachine
      recognizers := .linked diamondMachine
      chain := { Chain.standard with indirectFallback := false } }
  isa := retryIsa
  image := .ofCode .little 0x1000 [3, 0, 0, 4]
  known := []

/-- Here a rule says of every block that it is unclassified. -/
def labellingTask : Task :=
  { lossyTask with
    target := { lossyTask.target with
      chain := { rules := [
        { name := "label"
          apply := fun c => .ok (some (c.withFlow (.unclassified c.regs "odd"))) }] } } }

/-- An answer is a function with blocks of these kinds if what can be seen of
it is. -/
theorem exists_of_kinds (task : Task) (kinds : List FlowKind)
    (h : ((function task 0x1000).1.toOption.map fun f => f.blocks.map fun b => b.flow.kind) =
      some kinds) :
    ∃ f tally, function task 0x1000 = (.ok f, tally) ∧
      (f.blocks.map fun b => b.flow.kind) = kinds ∧
      ∀ k, (f.blocks.countP fun b => b.flow.kind = k) = kinds.countP (· = k) := by
  generalize function task 0x1000 = answer at h
  obtain ⟨result, tally⟩ := answer
  cases result with
  | error e => cases h
  | ok f =>
    have hkinds := Option.some.inj h
    refine ⟨f, tally, rfl, hkinds, fun k => ?_⟩
    rw [← hkinds, List.countP_map]
    rfl

/-- One block of each failing kind, counted once. With a rule outside of
the protocol, a block is unclassified and no failure has been counted. An
exploration that fails has classified fewer blocks than it has
disassembled. -/
theorem function_balanced_lossy :
    (∃ f tally, function lossyTask 0x1000 = (.ok f, tally) ∧
      f.blocks.map (fun b => b.flow.kind) = [.branch, .failed, .unclassified] ∧
      tally.total "cfr_blocks_disassembled_total" = 3 ∧ tally.samples = [3] ∧
      tally.total "cfr_decode_failures_total" = 1 ∧
      tally.total "cfr_classify_failures_total" = 1) ∧
    (∃ f tally visits p, function labellingTask 0x1000 = (.ok f, tally) ∧
      Makes labellingTask (atEntry labellingTask 0x1000) visits p ∧
      f.blocks.map (fun b => b.flow.kind) = [.unclassified] ∧
      tally.total "cfr_classify_failures_total" = 0 ∧
      (labels labellingTask visits).count .unclassified = 1) ∧
    ∃ tally, function strayTask 0x1000 = (.error (.classify (.notExecutable 0x9000)), tally) ∧
      FlowKind.sum (fun k => tally.total k.metric) <
        tally.total "cfr_blocks_disassembled_total" := by
  refine ⟨?_, ?_, ?_⟩
  · -- One instruction cannot be decoded, and one block is not explained.
    have hexplains : lossyTask.target.chain.Explains :=
      fun _ hr _ _ h => Rule.explains (List.mem_cons_of_mem _ hr) h
    have hrecipe (instr : UInt8) (addr : Word) (size : Nat) :
        (retryIsa.recipe instr addr size).AllSteps Recipe.Step.ClaimsNoFailure := by
      simp only [retryIsa]
      split <;> simp [Recipe.AllSteps, Recipe.Step.ClaimsNoFailure]
    obtain ⟨f, tally, hf, hkinds, hcount⟩ :=
      exists_of_kinds lossyTask [.branch, .failed, .unclassified] (by decide +kernel)
    have hlength : f.blocks.length = 3 := by simpa using congrArg List.length hkinds
    obtain ⟨visits, p, -, -, htotal, -, hsample, -, hdecode, hfailed, hclassify, hlabels, -⟩ :=
      (function_balanced lossyTask 0x1000).1 f tally hf
    obtain ⟨hnone, hnone'⟩ := hlabels hexplains
    have hfailed := (hcount .failed).symm.trans (hfailed (fun _ => rfl) hrecipe)
    have hclassify := (hcount .unclassified).symm.trans (hclassify fun _ => rfl)
    rw [hnone] at hfailed
    rw [hnone'] at hclassify
    refine ⟨f, tally, hf, hkinds, htotal.trans hlength, ?_, hdecode.trans hfailed.symm,
      hclassify.symm⟩
    rw [hsample (by omega), hlength]
  · -- A rule that gives the label itself has explained the block.
    obtain ⟨f, tally, hf, hkinds, hcount⟩ :=
      exists_of_kinds labellingTask [.unclassified] (by decide +kernel)
    obtain ⟨visits, p, hmakes, -, -, -, -, -, -, -, hclassify, -, -⟩ :=
      (function_balanced labellingTask 0x1000).1 f tally hf
    have hnone : tally.total Metric.classifyFailures.name = 0 := by
      have hview : (function labellingTask 0x1000).2.total Metric.classifyFailures.name = 0 := by
        decide +kernel
      rwa [hf] at hview
    have hlabels := (hcount .unclassified).symm.trans (hclassify fun _ => rfl)
    rw [hnone, Nat.zero_add] at hlabels
    exact ⟨f, tally, visits, p, hf, hmakes, hkinds, hnone, hlabels.symm⟩
  · -- The run that fails has disassembled more blocks than it has classified.
    obtain ⟨tally, hfails⟩ : ∃ tally, function strayTask 0x1000 =
        (.error (.classify (.notExecutable 0x9000)), tally) := by
      have hview : (function strayTask 0x1000).1 = .error (.classify (.notExecutable 0x9000)) := by
        decide +kernel
      generalize function strayTask 0x1000 = answer at hview
      exact ⟨answer.2, Prod.ext hview rfl⟩
    exact ⟨tally, hfails, (function_balanced strayTask 0x1000).2 _ _ hfails⟩

end Explore

end FlowRecovery
