import FlowRecovery.Flow.Rule
import FlowRecovery.Tally

/-!
# `FlowRecovery.Flow.Classify`: deciding the flow of a block

Rules are tried in order and the first that recognises the block wins.
What no rule recognises is an indirect jump, or, where a chain does not
allow that guess, a block without explanation. Blocks that do not go on
at the instruction pointer keep their meaning.
-/

set_option autoImplicit false

namespace FlowRecovery

/-- Rules in order of priority. -/
structure Chain where
  rules : List Rule
  /-- Is an unrecognised block an indirect jump? -/
  indirectFallback : Bool := true

namespace Chain

/-- The standard rules, with indirect jumps as the fallback. -/
def standard : Chain where
  rules := Rule.standard

/-- The standard rules, with conditional returns tried first. -/
def withConditionalReturn : Chain where
  rules := Rule.conditionalReturn :: Rule.standard

/-- The first answer among `rules`. -/
def firstMatch (c : Candidate) : List Rule → Except ClassifyError (Option FlowBlock)
  | [] => .ok none
  | r :: rest => do
    match ← r.apply c with
    | some block => .ok (some block)
    | none => firstMatch c rest

/-- The flow of a candidate. -/
def classify (chain : Chain) (c : Candidate) : Except ClassifyError FlowBlock := do
  match ← firstMatch c chain.rules with
  | some block => .ok block
  | none =>
    if chain.indirectFallback then .ok (c.withFlow (.indirectJump c.regs))
    else .error (.noRuleMatched chain.rules.length)

/-- The flow of a finished block, before counting. -/
def classifyExit (chain : Chain) (s : Setting) (b : Block) : Except ClassifyError FlowBlock :=
  let carry (flow : Flow) : FlowBlock :=
    { index := b.index, addr := b.addr, stmts := b.stmts, flow }
  match b.exit with
  | .fetch regs =>
    match chain.classify { setting := s, index := b.index, addr := b.addr, stmts := b.stmts, regs }
      with
    | .error (.noRuleMatched tried) =>
      .ok (carry (.unclassified regs (ClassifyError.noRuleMatched tried).message))
    | result => result
  | .branch cond onTrue onFalse => .ok (carry (.innerBranch cond onTrue onFalse))
  | .failed regs addr reason => .ok (carry (.failed regs addr reason))
  | .arch regs name args =>
    .ok { carry (.arch regs name args) with
      successors := ((regs.get? s.machine.ip).bind (Value.executableAddress? s.image)).toList }

/-- Do the rules leave the block without explanation? Only a block that
goes on at its instruction pointer is put to them. -/
def isUnexplained (chain : Chain) (s : Setting) (b : Block) : Bool :=
  match b.exit with
  | .fetch regs =>
    match chain.classify { setting := s, index := b.index, addr := b.addr, stmts := b.stmts, regs }
      with
    | .ok _ => false
    | .error _ => true
  | _ => false

/-- The flow of a finished block, counted: every block by its kind, and
every one that the rules could not explain. -/
def classifyBlock (chain : Chain) (s : Setting) (b : Block) :
    ExceptT ClassifyError (StateM Tally) FlowBlock := do
  if chain.isUnexplained s b then modify Tally.countClassifyFailure
  let block ← ExceptT.mk (pure (chain.classifyExit s b))
  modify (Tally.countClassified block.flow.kind)
  pure block

end Chain

end FlowRecovery
