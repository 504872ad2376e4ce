import FlowRecovery.Flow

/-!
# `FlowRecovery.Flow.Rule`: rules that recognise a flow

A rule looks at one block that goes on wherever its instruction pointer
leads, a `Candidate`, and either recognises it, declines, or reports
that the block looks like its own but does not add up. The rules here
hold for every machine; what a call or a return looks like is asked of
the machine's `Recognizers`.
-/

set_option autoImplicit false

namespace FlowRecovery

/-- Why a block could not be classified. -/
inductive ClassifyError where
  | notExecutable (addr : Word)
  | infeasibleBranch (feasibility : Feasibility)
  | noRuleMatched (tried : Nat)
deriving DecidableEq, Repr

namespace ClassifyError

/-- The text of the error. -/
def message : ClassifyError → String
  | .notExecutable addr => s!"successor {addr.hex} is not executable"
  | .infeasibleBranch feasibility =>
    s!"conditional return with infeasible branch ({feasibility.name})"
  | .noRuleMatched tried => s!"no classifier matched ({tried} tried)"

/-- A block that no rule explains is no mistake of the rules; the other
causes are. -/
def isViolation : ClassifyError → Bool
  | .noRuleMatched _ => false
  | _ => true

end ClassifyError

/-- What calls and returns look like on a machine. -/
structure Recognizers where
  /-- The statements to keep and the return address, for a call. -/
  call : Image → List Stmt → RegFile → Option (List Stmt × Word)
  /-- The statements to keep, for a return. -/
  ret : List Stmt → RegFile → (Value → AbsValue) → Option (List Stmt)

/-- What all blocks of a function share in classification. -/
structure Setting where
  machine : Machine
  image : Image
  defs : Definitions
  recognizers : Recognizers
  /-- What is known of a value. -/
  abs : Value → AbsValue
  /-- Which arms a condition allows. -/
  feasible : Value → Feasibility
  /-- Entries of functions known beforehand. -/
  known : List Word

/-- A block that goes on wherever its instruction pointer leads. -/
structure Candidate where
  setting : Setting
  index : BlockIndex
  addr : Word
  stmts : List Stmt
  regs : RegFile

namespace Candidate

/-- The candidate as a block with the given flow. -/
def withFlow (c : Candidate) (flow : Flow) (successors : List Word := []) : FlowBlock :=
  { index := c.index, addr := c.addr, stmts := c.stmts, flow, successors }

/-- The final instruction pointer. -/
def ip? (c : Candidate) : Option Value :=
  c.regs.get? c.setting.machine.ip

/-- The address that a value denotes in the candidate's image. -/
def address? (c : Candidate) (v : Value) : Option Word :=
  v.address? c.setting.image

/-- The same, if it lies in executable memory. -/
def executableAddress? (c : Candidate) (v : Value) : Option Word :=
  v.executableAddress? c.setting.image

/-- The address in executable memory that the block goes on at. -/
def target? (c : Candidate) : Option Word :=
  c.ip?.bind c.executableAddress?

/-- Condition and arms, if the instruction pointer is a choice. -/
def ipChoice? (c : Candidate) : Option (Value × Value × Value) :=
  match c.ip?.bind c.setting.defs.app? with
  | some (.select cond onTrue onFalse) => some (cond, onTrue, onFalse)
  | _ => none

/-- Is the stack pointer back where it was at function entry? -/
def stackAtEntry (c : Candidate) : Bool :=
  let sp := c.setting.machine.sp
  match c.regs.get? sp with
  | some (.initial reg _) => reg == sp
  | some v => c.setting.defs.linear v == some ⟨some sp, 0⟩
  | none => false

end Candidate

/-- A named rule. It answers `none` to decline. -/
structure Rule where
  name : String
  apply : Candidate → Except ClassifyError (Option FlowBlock)

namespace Rule

/-- A two-way branch between known addresses in executable memory. -/
def branch : Rule where
  name := "branch"
  apply c := .ok <|
    match c.ipChoice? with
    | some (cond, onTrue, onFalse) =>
      match c.executableAddress? onTrue, c.executableAddress? onFalse with
      | some t, some f => some (c.withFlow (.branch c.regs cond t f) [t, f])
      | _, _ => none
    | none => none

/-- A call, as the machine recognises it. -/
def call : Rule where
  name := "call"
  apply c := .ok <|
    match c.setting.recognizers.call c.setting.image c.stmts c.regs with
    | some (stmts, returnAddr) =>
      some { c.withFlow (.call c.regs returnAddr) with
        stmts
        successors := [returnAddr].filter c.setting.image.isExecutable
        newFunctions := c.target?.toList }
    | none => none

/-- A return, as the machine recognises it. -/
def ret : Rule where
  name := "return"
  apply c := .ok <|
    match c.setting.recognizers.ret c.stmts c.regs c.setting.abs with
    | some stmts => some { c.withFlow (.ret c.regs) with stmts }
    | none => none

/-- A jump to the entry of a known function with the stack as it was at
this function's own entry. -/
def tailCall : Rule where
  name := "tail_call"
  apply c := .ok <|
    match c.target? with
    | some target =>
      if c.setting.known.contains target && c.stackAtEntry then
        some (c.withFlow (.tailCall c.regs))
      else none
    | none => none

/-- A jump to one known address in executable memory. -/
def jump : Rule where
  name := "jump"
  apply c := .ok <|
    match c.target? with
    | some target => some (c.withFlow (.jump c.regs target) [target])
    | none => none

/-- A return under a condition: the instruction pointer is a choice
between the return address and a known address. Both returning, or the
other arm being unknown, is declined; an arm outside executable memory
or one that cannot be taken is an error. -/
def conditionalReturn : Rule where
  name := "conditional_return"
  apply c :=
    match c.ipChoice? with
    | none => .ok none
    | some (cond, onTrue, onFalse) =>
      let trueReturns := c.setting.abs onTrue == .returnAddr
      let falseReturns := c.setting.abs onFalse == .returnAddr
      if trueReturns == falseReturns then .ok none
      else
        match c.address? (if trueReturns then onFalse else onTrue) with
        | none => .ok none
        | some next =>
          if !c.setting.image.isExecutable next then .error (.notExecutable next)
          else if c.setting.feasible cond ≠ .both then
            .error (.infeasibleBranch (c.setting.feasible cond))
          else
            .ok (some (c.withFlow (.conditionalReturn c.regs cond trueReturns next) [next]))

/-- The rules that hold for every machine, in order of priority. -/
def standard : List Rule :=
  [branch, call, ret, tailCall, jump]

end Rule

end FlowRecovery
