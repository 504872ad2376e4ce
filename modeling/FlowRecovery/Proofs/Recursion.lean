import FlowRecovery.Proofs.Descent.Recipe
import FlowRecovery.Proofs.ReturnStores
import FlowRecovery.Proofs.SingleAssignment
import FlowRecovery.Target.X8664

/-!
# `FlowRecovery.Proofs.Recursion`: walks without a bound

The linear form of a value and what is known of it are found by walks to a
depth that is given at the start. The recursions behind them have no such
depth: to answer for a value, they answer for the operands of its definition
first, and through a cycle of definitions they would go round for ever.

`Returns` is what such a recursion returns, if it returns. It is an inductive
relation, so a derivation is a finite tree of calls, and a value that asks
about itself has none (`Returns.not_mem_calls`). Over definitions in which
each assignment reads smaller numbers only (`Definitions.Descends`), there is
one for every value, and the answer is that of the walk
(`Definitions.Descends.linearReturns_iff`, `transferReturns_iff`). Runs write
no other definitions, in whatever order they branch, fail and go back
(`Recipe.Generates.walks_return`).
-/

set_option autoImplicit false

namespace FlowRecovery

/-! ### Recursions -/

/-- The recursion that is asked about `v` and returns an answer. It asks
about every value in `calls v` and makes its answer of what these return,
and it relies on `needs v`. -/
inductive Returns {α : Type} (needs : Value → Prop) (calls : Value → List Value)
    (via : (Value → α) → Value → α) : Value → α → Prop
  | intro {v : Value} (answer : Value → α) (hneeds : needs v)
      (h : ∀ u ∈ calls v, Returns needs calls via u (answer u)) :
      Returns needs calls via v (via answer v)

/-- The recursion for the linear form. A sum or a difference asks about both
of its sides. -/
def Definitions.LinearReturns (defs : Definitions) : Value → Option Linear → Prop :=
  Returns (fun _ => True) defs.linearCalls defs.linearVia

/-- The recursion for what is known of a value. A mask asks about both of
its sides and a primitive about its arguments. A load needs the linear form
of its address. -/
def ReturnDomain.TransferReturns (dom : ReturnDomain) : Value → AbsValue → Prop :=
  Returns (fun v => ∀ addr bytes, dom.defs.rhs? v = some (.load addr bytes) →
      ∃ form, dom.defs.LinearReturns addr form)
    dom.transferCalls dom.transferVia

/-- A value that asks about itself gets no answer. -/
theorem Returns.not_mem_calls {α : Type} {needs : Value → Prop} {calls : Value → List Value}
    {via : (Value → α) → Value → α} {v : Value} {a : α} (h : Returns needs calls via v a) :
    v ∉ calls v := by
  induction h with
  | intro _ _ _ ih => exact fun hself => ih _ hself hself

example (form : Option Linear) :
    ¬(Definitions.ofStmts [.assign 0 (.bv 64) (.app (.binary .add (.assign 0 (.bv 64))
      (.bv 64 1)))]).LinearReturns (.assign 0 (.bv 64)) form :=
  fun h => h.not_mem_calls (by decide)

/-! ### Definitions that descend -/

/-- Each assignment reads smaller numbers only. -/
def Definitions.Descends (defs : Definitions) : Prop :=
  ∀ id rhs, defs.assigned.lookup id = some rhs → ∀ u ∈ rhs.operands, u.Below id

/-- Statements that read smaller numbers only make such definitions. -/
theorem Definitions.descends_ofStmts {stmts : List Stmt} (h : ∀ s ∈ stmts, s.Descends) :
    (ofStmts stmts).Descends := by
  intro id rhs hrhs
  obtain ⟨ty, hmem⟩ := mem_of_lookup hrhs
  exact h _ hmem id rfl

/-- Numbers get smaller along the definitions, so there is no cycle. -/
theorem Definitions.Descends.acyclic {defs : Definitions} (h : defs.Descends) : defs.Acyclic := by
  refine acyclic_of_lt ?_
  rintro id other ⟨rhs, hrhs, u, hu, hother⟩
  exact h id rhs hrhs u hu other hother

/-- Every value mentions one assignment at most. -/
theorem Value.exists_below (v : Value) : ∃ n, v.Below n := by
  cases hid : v.assignId? with
  | none => exact ⟨0, below_of_constant hid 0⟩
  | some id =>
    refine ⟨id + 1, fun other hother => ?_⟩
    rw [hid] at hother
    cases hother
    exact Nat.lt_succ_self id

section

variable {α : Type} {needs : Value → Prop} {calls : Value → List Value}
  {via : (Value → α) → Value → α} {f : Value → α}

/-- A recursion has one answer, that of the function which solves its
equation. -/
theorem Returns.eq (hvia : ∀ g v, (∀ u ∈ calls v, g u = f u) → via g v = via f v)
    (hf : ∀ v, f v = via f v) {v : Value} {a : α} (h : Returns needs calls via v a) : a = f v := by
  induction h with
  | intro answer _ _ ih => rw [hvia answer _ ih, ← hf]

/-- It returns if its calls are about operands and the definitions
descend. -/
theorem Definitions.Descends.returns {defs : Definitions} (hdefs : defs.Descends)
    (hcalls : ∀ v, ∀ u ∈ calls v, ∃ rhs, defs.rhs? v = some rhs ∧ u ∈ rhs.operands)
    (hneeds : ∀ v, needs v) (hf : ∀ v, f v = via f v) (v : Value) :
    Returns needs calls via v (f v) := by
  obtain ⟨n, hn⟩ := v.exists_below
  -- `n` bounds the number of the assignment that is asked about, which in turn
  -- bounds the numbers that its definition reads.
  induction n using Nat.strong_induction_on generalizing v with
  | _ n ih =>
    rw [hf]
    refine .intro f (hneeds v) fun u hu => ?_
    obtain ⟨rhs, hrhs, hmem⟩ := hcalls v u hu
    obtain ⟨id, hid, hlookup⟩ := Option.bind_eq_some_iff.1 hrhs
    exact ih id (hn id hid) u (hdefs id rhs hlookup u hmem)

end

namespace Definitions.Descends

/-- The walk for the linear form finds what the recursion returns. -/
theorem linearReturns_iff {defs : Definitions} (h : defs.Descends) (v : Value)
    (form : Option Linear) : defs.LinearReturns v form ↔ form = defs.linear v := by
  have heq (v : Value) : defs.linear v = defs.linearVia defs.linear v := h.acyclic.linear_eq v
  refine ⟨fun hreturns => hreturns.eq (fun _ _ => linearVia_congr) heq, ?_⟩
  rintro rfl
  exact h.returns (fun _ _ => mem_operands_of_linearCalls) (fun _ => trivial) heq v

/-- So does the walk for what is known of a value. -/
theorem transferReturns_iff {dom : ReturnDomain} (h : dom.defs.Descends) (v : Value)
    (known : AbsValue) : dom.TransferReturns v known ↔ known = dom.transfer v := by
  have heq (v : Value) : dom.transfer v = dom.transferVia dom.transfer v :=
    ReturnDomain.transfer_eq h.acyclic v
  refine ⟨fun hreturns => hreturns.eq (fun _ _ => ReturnDomain.transferVia_congr) heq, ?_⟩
  rintro rfl
  -- The calls are about operands. What a load needs has been shown above.
  refine h.returns (fun _ _ => ReturnDomain.mem_operands_of_transferCalls) (fun _ addr _ _ => ?_)
    heq v
  exact ⟨_, (h.linearReturns_iff addr _).2 rfl⟩

end Definitions.Descends

/-- The recursions through the definitions return for every value, and the
walks to a depth answer as they do. -/
structure Definitions.WalksReturn (defs : Definitions) : Prop where
  linear : ∀ v form, defs.LinearReturns v form ↔ form = defs.linear v
  transfer : ∀ dom : ReturnDomain, dom.defs = defs →
    ∀ v known, dom.TransferReturns v known ↔ known = dom.transfer v

/-- Definitions that descend can be followed. -/
theorem Definitions.Descends.walksReturn {defs : Definitions} (h : defs.Descends) :
    defs.WalksReturn := by
  refine ⟨h.linearReturns_iff, fun dom hdom => ?_⟩
  rw [← hdom] at h
  exact h.transferReturns_iff

/-! ### What runs write -/

/-- Whatever runs do that share one count of numbers, each assignment they
write reads smaller numbers only. So the recursions through the definitions
return for every value, and their answers are those of the walks. The
definitions can be recorded from any of the statements, in any order, also
from statements that were undone. -/
theorem Recipe.Generates.walks_return {past : List Builder} {p : Progress}
    (h : Generates past p) :
    (∀ id ty rhs, Stmt.assign id ty rhs ∈ written past p →
      ∀ u ∈ rhs.operands, ∀ other, u.assignId? = some other → other < id) ∧
    ∀ stmts : List Stmt, (∀ s ∈ stmts, s ∈ written past p) →
      (∀ v form, (Definitions.ofStmts stmts).LinearReturns v form ↔
        form = (Definitions.ofStmts stmts).linear v) ∧
      ∀ dom : ReturnDomain, dom.defs = .ofStmts stmts →
        ∀ v known, dom.TransferReturns v known ↔ known = dom.transfer v := by
  refine ⟨fun id ty rhs hs => h.descends _ hs id rfl, fun stmts hstmts => ?_⟩
  have hdefs : (Definitions.ofStmts stmts).Descends :=
    Definitions.descends_ofStmts fun s hs => h.descends s (hstmts s hs)
  exact ⟨hdefs.walksReturn.linear, hdefs.walksReturn.transfer⟩

/-! ### Two runs -/

namespace Recipe

/-- One byte of code on a machine with a stack. -/
def stackSite : Site where
  machine := X8664.machine
  image := .ofCode .little 0x1000 [0]
  addr := 0x1000
  size := 1

/-- Assignment 0, which is undone. -/
def undoneSum : Recipe :=
  .step (.save "start") <|
  .step (.bind "slot" (.binary .add (.leaf (.reg 4)) (.leaf (.value (.bv 64 8))))) <|
  .step (.restore "start") .done

/-- Assignment 1 reads it nevertheless. -/
def loadUndone : Recipe := .step (.load "held" (.leaf (.value (.assign 0 (.bv 64)))) 8) .done

/-- Assignment 2, in an instruction that fails. -/
def failing : Recipe :=
  .step (.set 4 (.binary .sub (.leaf (.reg 4)) (.leaf (.value (.bv 64 16))))) <|
  .step (.fail "unknown") .done

/-- Assignments 3 and 4 in one arm, and 5 in the other. They read what the
first run has made and undone. -/
def branching : Recipe :=
  .branch (.leaf (.reg 20))
    (.step (.prim "passed" "pass" [.leaf (.value (.assign 1 (.bv 64)))] (.bv 64) true) <|
      .step (.bind "masked" (.binary .and (.leaf (.temp "passed"))
        (.leaf (.value (.bv 64 0xfffffffffffffffc))))) .done)
    (.step (.bind "back" (.binary .add (.leaf (.value (.assign 2 (.bv 64))))
      (.leaf (.value (.bv 64 16))))) .done)
    .done

/-- Each recipe is handed only numbers that have been taken when it is
carried out. -/
theorem recipes_below : undoneSum.Below 0 ∧ loadUndone.Below 1 ∧ failing.Below 2 ∧
    branching.Below 3 := by
  simp [undoneSum, loadUndone, failing, branching, Recipe.Below, Step.below_iff, Step.terms,
    Step.Unnamed, Term.Below, Expr.All, Leaf.Below, Value.Below, Value.assignId?]

/-- The instruction that fails. -/
def failingSource : Disassembly.Source where
  machine := X8664.machine
  image := stackSite.image
  isa := { Instr := Unit, decode := fun _ _ => some ((), 1), recipe := fun _ _ _ => failing }

/-- A recipe that is carried out there. -/
def onStack (r : Recipe) : Action := .perform .outermost ⟨stackSite, r, []⟩

/-- It has no results from before to be handed. -/
theorem below_onStack {r : Recipe} {n : Nat} (h : r.Below n) : (onStack r).Below n :=
  ⟨h, fun _ h => absurd h List.not_mem_nil⟩

/-- A run from the start, with the numbers that are left. -/
def freshRun (d : Discovery) : Progress := { builder := .start d 0x1000 (.symbolic X8664.machine) }

/-- After the assignment has been made and undone. -/
def afterSum : Progress := ((onStack undoneSum).run (freshRun {})).2

/-- After it has been read. -/
def afterLoad : Progress := ((onStack loadUndone).run afterSum).2

/-- After the instruction that fails. -/
def afterFailure : Progress :=
  { afterLoad with builder := (Disassembly.decodeOne failingSource 0x1000 afterLoad.builder).2 }

/-- The second run. -/
def afterBranch : Progress :=
  ((onStack branching).run (freshRun afterFailure.builder.toDiscovery)).2

/-- The builders on the way there. -/
def beforeBranch : List Builder :=
  (freshRun afterFailure.builder.toDiscovery).builder :: (afterFailure.builders ++
    (Disassembly.midway failingSource 0x1000 afterLoad.builder ++
      [afterLoad.builder, afterSum.builder, (freshRun {}).builder]))

/-- What was written, in no order. -/
def scattered : List Stmt :=
  [.assign 5 (.bv 64) (.app (.binary .add (.assign 2 (.bv 64)) (.bv 64 16))),
    .assign 2 (.bv 64) (.app (.binary .sub (.initial 4 (.bv 64)) (.bv 64 16))),
    .assign 4 (.bv 64) (.app (.binary .and (.assign 3 (.bv 64)) (.bv 64 0xfffffffffffffffc))),
    .assign 0 (.bv 64) (.app (.binary .add (.initial 4 (.bv 64)) (.bv 64 8))),
    .assign 3 (.bv 64) (.prim ⟨"pass", [.assign 1 (.bv 64)], .bv 64, true⟩),
    .assign 1 (.bv 64) (.load (.assign 0 (.bv 64)) 8)]

/-- The return address lies above the stack pointer, and primitives pass
their first argument on. -/
def scatteredDomain : ReturnDomain := ⟨.ofStmts scattered, [⟨some 4, 8⟩], some PrimEval.first⟩

/-- At the end only four of the six assignments are left, and definitions
can be followed through all of them. -/
theorem Generates.walks_return_scattered :
    Generates beforeBranch afterBranch ∧
      (∀ s ∈ scattered, s ∈ written beforeBranch afterBranch) ∧
      afterBranch.builder.written.filterMap Stmt.assignId? = [1, 3, 4, 5] ∧
      (Definitions.ofStmts scattered).LinearReturns (.assign 5 (.bv 64)) (some ⟨some 4, 0⟩) ∧
      scatteredDomain.TransferReturns (.assign 4 (.bv 64)) .returnAddr := by
  obtain ⟨hsum, hload, hfail, hbranch⟩ := recipes_below
  -- The registers mention no assignment.
  have hregs (n : Nat) : (RegFile.symbolic X8664.machine).Below n := by
    have hconstant : ∀ v ∈ (RegFile.symbolic X8664.machine).values, v.assignId? = none := by
      decide +kernel
    exact fun v hv => Value.below_of_constant (hconstant v hv) n
  have hstart : Generates [] (freshRun {}) := .start _ rfl (hregs _)
  have hafterSum : Generates _ afterSum := hstart.act (below_onStack hsum)
  have hafterLoad : Generates _ afterLoad :=
    hafterSum.act (below_onStack (hload.mono (by decide +kernel)))
  have hafterFailure : Generates _ afterFailure :=
    hafterLoad.decode fun _ _ => hfail.mono (by decide +kernel)
  have hnext : Generates _ (freshRun afterFailure.builder.toDiscovery) :=
    hafterFailure.next _ (List.Subset.refl _) (hregs _)
  have hafterBranch : Generates beforeBranch afterBranch :=
    hnext.act (below_onStack (hbranch.mono (by decide +kernel)))
  have hscattered : ∀ s ∈ scattered, s ∈ written beforeBranch afterBranch := by decide +kernel
  obtain ⟨hlinear, htransfer⟩ := hafterBranch.walks_return.2 scattered hscattered
  exact ⟨hafterBranch, hscattered, by decide +kernel, (hlinear _ _).2 (by decide),
    (htransfer scatteredDomain rfl _ _).2 (by decide)⟩

end Recipe

end FlowRecovery
