import FlowRecovery.Proofs.Descent.Explore

/-!
# `FlowRecovery.Proofs.Limits`: exploration comes to an end

Code can go on for ever. Its instructions can have size zero, and every
block can lead to an address that no other has led to. Exploration ends all
the same, because it counts: the instructions of a block, and the blocks of
a function.

Both loops count what they have done and stop when it is enough. The
definitions count down what they may still do, which would end any loop. So
the loops stand here once more, as relations that have no bound of their
own: `Decodes` for the instructions of one run and `Works` for the runs of
one function. A derivation of either is finite. There is exactly one from
every state, it is what the definitions compute, and its length keeps to the
limits.

An instruction counts by itself. A run counts because it has at least one
block (`Disassembly.run_head`), so there are no more runs than blocks
(`Works.length_le`).

The loops are not all that has to end. Each block is classified by walks
through the definitions, which have no count to stop them
(`FlowRecovery.Proofs.Recursion`). They end as long as instructions are
handed values whose numbers are taken (`Visit.Supplied`), and may go round
for ever otherwise (`function_walks_without_end`).
-/

set_option autoImplicit false

namespace FlowRecovery

/-! ### The instructions of a run -/

namespace Disassembly

variable {src : Source} {limit count : Nat} {pc : Word} {b : Builder}

/-- Decode at `pc` and go on, after `count` other instructions. The
addresses are those at which an instruction is decoded. -/
inductive Decodes (src : Source) (limit : Nat) : Nat → Word → Builder → List Word →
    Except BuildError (Option BuildError) × Builder → Prop
  | closed {count : Nat} {pc : Word} {b b' : Builder} {failure : Option BuildError}
      (hone : decodeOne src pc b = (.ok (.closed failure), b')) :
      Decodes src limit count pc b [pc] (.ok failure, b')
  | failed {count : Nat} {pc : Word} {b b' : Builder} {e : BuildError}
      (hone : decodeOne src pc b = (.error e, b')) :
      Decodes src limit count pc b [pc] (.error e, b')
  /-- There are enough, so the block is closed behind this one. -/
  | enough {count : Nat} {pc next : Word} {b b' : Builder}
      (hone : decodeOne src pc b = (.ok (.fallsThrough next), b')) (hlimit : limit ≤ count + 1) :
      Decodes src limit count pc b [pc] ((Build.close .fetch >>= fun _ => pure none) b')
  | more {count : Nat} {pc next : Word} {b b' : Builder} {pcs : List Word}
      {answer : Except BuildError (Option BuildError) × Builder}
      (hone : decodeOne src pc b = (.ok (.fallsThrough next), b')) (hlimit : count + 1 < limit)
      (hmore : Decodes src limit (count + 1) next b' pcs answer) :
      Decodes src limit count pc b (pc :: pcs) answer

namespace Decodes

variable {pcs pcs' : List Word} {answer answer' : Except BuildError (Option BuildError) × Builder}

/-- One instruction after the other, there is only one way to go on. -/
theorem unique (h : Decodes src limit count pc b pcs answer)
    (h' : Decodes src limit count pc b pcs' answer') : pcs' = pcs ∧ answer' = answer := by
  -- What the next instruction does decides which of the rules applies.
  induction h generalizing pcs' answer' with
  | closed hone =>
    cases h' with
    | closed hone' =>
      cases hone.symm.trans hone'
      exact ⟨rfl, rfl⟩
    | failed hone' | enough hone' | more hone' => cases hone.symm.trans hone'
  | failed hone =>
    cases h' with
    | failed hone' =>
      cases hone.symm.trans hone'
      exact ⟨rfl, rfl⟩
    | closed hone' | enough hone' | more hone' => cases hone.symm.trans hone'
  | enough hone hlimit =>
    cases h' with
    | closed hone' | failed hone' => cases hone.symm.trans hone'
    | enough hone' =>
      cases hone.symm.trans hone'
      exact ⟨rfl, rfl⟩
    | more _ hlimit' => omega
  | more hone hlimit _ ih =>
    cases h' with
    | closed hone' | failed hone' => cases hone.symm.trans hone'
    | enough _ hlimit' => omega
    | more hone' _ hmore' =>
      cases hone.symm.trans hone'
      obtain ⟨rfl, rfl⟩ := ih hmore'
      exact ⟨rfl, rfl⟩

/-- No more instructions are decoded than are allowed, but always one. -/
theorem length_le (h : Decodes src limit count pc b pcs answer) (hcount : count < max 1 limit) :
    count + pcs.length ≤ max 1 limit := by
  induction h with
  | closed | failed | enough => exact hcount
  | more _ hlimit _ ih =>
    have hrest := ih (by omega)
    rw [List.length_cons]
    omega

end Decodes

/-- The definition decodes in this way, if what it may still do and what has
been done add up to the limit. -/
theorem decodes_decodeFrom (src : Source) {more : Nat} (h : max 1 limit = count + more + 1)
    (pc : Word) (b : Builder) :
    ∃ pcs, Decodes src limit count pc b pcs (decodeFrom src more pc b) := by
  induction more generalizing count pc b with
  | zero =>
    -- This instruction is the last one that is allowed.
    rw [decodeFrom, bind_run]
    cases hone : decodeOne src pc b with
    | mk result b' =>
      cases result with
      | error e => exact ⟨[pc], .failed hone⟩
      | ok after =>
        cases after with
        | closed failure => exact ⟨[pc], .closed hone⟩
        | fallsThrough next => exact ⟨[pc], .enough hone (by omega)⟩
  | succ more ih =>
    rw [decodeFrom, bind_run]
    cases hone : decodeOne src pc b with
    | mk result b' =>
      cases result with
      | error e => exact ⟨[pc], .failed hone⟩
      | ok after =>
        cases after with
        | closed failure => exact ⟨[pc], .closed hone⟩
        | fallsThrough next =>
          -- One instruction has been done and one less may be done.
          have hrest : max 1 limit = count + 1 + more + 1 := by omega
          obtain ⟨pcs, hmore⟩ := ih hrest next b'
          exact ⟨pc :: pcs, .more hone (by omega) hmore⟩

end Disassembly

/-! ### The runs of a function -/

namespace Explore

variable {task : Task} {p q : Progress} {visits visits' : List Visit}
  {answer answer' : Except ExploreError Unit × Progress}

/-- Work off the queue, run after run. The last of the runs may have
failed. -/
def Works (task : Task) (p : Progress) (visits : List Visit)
    (answer : Except ExploreError Unit × Progress) : Prop :=
  ∃ made q last, Makes task p made q ∧ Ends task q last answer ∧ visits = made ++ last

/-- An exploration that ends makes no further run. -/
theorem Ends.nextVisit?_eq_none {last : List Visit} (h : Ends task p last answer)
    (hlimit : p.blocks.length < task.limits.maxBlocks) : nextVisit? task p = none := by
  cases h with
  | done hnext => simp only [nextVisit?, hnext]
  | cut _ hfull => exact absurd hlimit (Nat.not_lt.2 hfull)
  | failed _ hnext hvisit => simp only [nextVisit?, hnext, hvisit]

/-- An exploration ends in one way. -/
theorem Ends.unique {last last' : List Visit} (h : Ends task p last answer)
    (h' : Ends task p last' answer') : last' = last ∧ answer' = answer := by
  cases h with
  | done hnext =>
    cases h' with
    | done => exact ⟨rfl, rfl⟩
    | cut hnext' => exact absurd hnext hnext'
    | failed _ hnext' => cases hnext.symm.trans hnext'
  | cut hnext hlimit =>
    cases h' with
    | done hnext' => exact absurd hnext' hnext
    | cut => exact ⟨rfl, rfl⟩
    | failed hlimit' => omega
  | failed hlimit hnext hvisit =>
    cases h' with
    | done hnext' => cases hnext.symm.trans hnext'
    | cut _ hlimit' => omega
    | failed _ hnext' hvisit' =>
      cases hnext.symm.trans hnext'
      cases hvisit.symm.trans hvisit'
      exact ⟨rfl, rfl⟩

namespace Works

/-- Run after run, there is only one way to go on. -/
theorem unique (h : Works task p visits answer) (h' : Works task p visits' answer') :
    visits' = visits ∧ answer' = answer := by
  obtain ⟨made, q, last, hmakes, hends, rfl⟩ := h
  obtain ⟨made', q', last', hmakes', hends', rfl⟩ := h'
  -- As long as one of them makes a run, the other one makes the same.
  induction hmakes generalizing made' with
  | nil =>
    cases hmakes' with
    | nil => exact hends.unique hends'
    | cons hlimit hv => cases (hends.nextVisit?_eq_none hlimit).symm.trans hv
  | cons hlimit hv _ ih =>
    cases hmakes' with
    | nil => cases (hends'.nextVisit?_eq_none hlimit).symm.trans hv
    | cons _ hv' hmore' =>
      cases hv.symm.trans hv'
      obtain ⟨hvisits, hanswer⟩ := ih hends _ hmore'
      exact ⟨congrArg _ hvisits, hanswer⟩

/-- Every run brings the limit nearer by a block. -/
theorem length_le (h : Works task p visits answer) (hp : p.Taken) :
    visits.length ≤ task.limits.maxBlocks - p.blocks.length := by
  obtain ⟨made, q, last, hmakes, hends, rfl⟩ := h
  have hmade := hmakes.length_le hp
  have hblocks := hmakes.length_add_le hp
  cases hends with
  | done | cut =>
    rw [List.append_nil]
    exact hmade
  | failed hlimit =>
    -- The run that failed was made because there was room for its blocks.
    rw [List.length_append, List.length_singleton]
    omega

/-- Every run starts with all finished blocks taken. -/
theorem taken (h : Works task p visits answer) (hp : p.Taken) :
    ∀ v ∈ visits, v.before.Taken := by
  obtain ⟨made, q, last, hmakes, hends, rfl⟩ := h
  refine List.forall_mem_append.2 ⟨fun v hv => ?_, ?_⟩
  · obtain ⟨earlier, later, p', -, hearlier, hnext, -⟩ := hmakes.split hv
    obtain ⟨rest, -, hbefore, -⟩ := nextVisit?_eq_some_iff.1 hnext
    rw [hbefore]
    exact hearlier.taken hp
  · cases hends with
    | done | cut => exact fun v hv => absurd hv List.not_mem_nil
    | failed => exact List.forall_mem_singleton.2 (hmakes.taken hp)

/-- The definitions that blocks are classified by can be followed. -/
theorem walksReturn (htarget : task.target.Faithful) (h : Works task p visits answer)
    (hp : p.Descends) (hsupplied : ∀ v ∈ visits, v.Supplied task) :
    ∀ v ∈ visits, v.after.defs.WalksReturn := by
  obtain ⟨made, q, last, hmakes, hends, rfl⟩ := h
  obtain ⟨hmade, hlast⟩ := List.forall_mem_append.1 hsupplied
  obtain ⟨hq, hdefs⟩ := hmakes.descends htarget hp hmade
  exact List.forall_mem_append.2 ⟨fun v hv => (hdefs v hv).walksReturn,
    fun v hv => (hends.descends hq hlast v hv).walksReturn⟩

end Works

/-- The run decodes at these addresses, no more of them than are allowed,
and has a block to show for it. -/
structure Visit.Within (task : Task) (v : Visit) (pcs : List Word) : Prop where
  decodes : ∀ pcs' answer, Disassembly.Decodes task.source task.limits.maxInstructions 0 v.addr
      (.start v.before.session.discovery v.addr v.regs) pcs' answer ↔
    pcs' = pcs ∧ answer = Disassembly.decodeFrom task.source (task.limits.maxInstructions - 1)
      v.addr (.start v.before.session.discovery v.addr v.regs)
  limited : pcs.length ≤ max 1 task.limits.maxInstructions
  yields : ∀ out session, Disassembly.run task.source task.limits.maxInstructions v.addr v.regs
    v.before.session = (.ok out, session) → out.blocks ≠ []

/-- A run keeps to its limit, and to the one way of decoding there is. -/
theorem Visit.exists_within {v : Visit} (hv : v.before.Taken) : ∃ pcs, v.Within task pcs := by
  obtain ⟨pcs, hdecodes⟩ := Disassembly.decodes_decodeFrom task.source
    (show max 1 task.limits.maxInstructions = 0 + (task.limits.maxInstructions - 1) + 1 by omega)
    v.addr (.start v.before.session.discovery v.addr v.regs)
  refine ⟨pcs, fun pcs' answer => ⟨hdecodes.unique, ?_⟩, ?_, fun out session hrun => ?_⟩
  · rintro ⟨rfl, rfl⟩
    exact hdecodes
  · have hle := hdecodes.length_le (by omega)
    rwa [Nat.zero_add] at hle
  · obtain ⟨first, others, hout, -⟩ := Disassembly.run_head hv hrun
    rw [hout]
    exact List.cons_ne_nil first others

/-- Whatever the instructions are and wherever the code leads, exploration
ends, in one way, and reports what it has come to. It makes no more runs
than blocks are allowed, and each keeps to the limit on instructions and has
at least one block, unless it fails. The walks by which its blocks are
classified end too, if instructions are handed values whose numbers are taken
and the target brings in none of its own. -/
theorem function_within_limits (task : Task) (entry : Word) :
    (task.image.isExecutable entry = false →
      function task entry = (.error (.unmappedEntry entry), {})) ∧
    (task.image.isExecutable entry = true →
      ∃ visits answer,
        (∀ visits' answer', Works task (atEntry task entry) visits' answer' ↔
          visits' = visits ∧ answer' = answer) ∧
        function task entry = report entry answer ∧
        visits.length ≤ task.limits.maxBlocks ∧
        (∀ v ∈ visits, ∃ pcs, v.Within task pcs) ∧
        (task.target.Faithful → (∀ v ∈ visits, v.Supplied task) →
          ∀ v ∈ visits, v.after.defs.WalksReturn)) := by
  refine ⟨fun hentry => by simp [function, hentry], fun hentry => ?_⟩
  have htaken := taken_atEntry task entry
  obtain ⟨made, q, last, hmakes, hends⟩ := follow_atEntry task entry
  have hworks : Works task (atEntry task entry) (made ++ last) _ :=
    ⟨made, q, last, hmakes, hends, rfl⟩
  refine ⟨made ++ last, _, fun visits' answer' => ⟨hworks.unique, ?_⟩, function_eq_report hentry,
    hworks.length_le htaken, fun v hv => Visit.exists_within (hworks.taken htaken v hv),
    fun htarget => hworks.walksReturn htarget (descends_atEntry htarget entry)⟩
  rintro ⟨rfl, rfl⟩
  exact hworks

/-- A machine with a stack and a flag. -/
def endlessMachine : Machine where
  name := "endless"
  addrWidth := 64
  order := .little
  registers := [.word64 "ip", .word64 "sp", .flag "f"]
  ip := 0
  sp := 1

/-- All instructions have size zero. One stays where it is, and the others
go on to the next byte or to that one. -/
def endlessIsa : InstructionSet where
  Instr := UInt8
  decode bytes _ := bytes.head?.map (·, 0)
  recipe instr addr _ :=
    match instr with
    | 0 => .step .advance .done
    | _ => .step (.set 0 (.select (.leaf (.reg 2)) (.leaf (.value (.bv 64 (addr + 1))))
        (.leaf (.value (.bv 64 0x1008))))) .done

/-- Eight instructions that go on to the next byte or to the last one,
which stays where it is. -/
def endlessTask : Task where
  target := { machine := endlessMachine, recognizers := .stacked endlessMachine }
  isa := endlessIsa
  image := .ofCode .little 0x1000 [1, 1, 1, 1, 1, 1, 1, 1, 0]
  limits := { maxBlocks := 3, maxInstructions := 4 }
  known := []

/-- No instruction is handed the result of an assignment. -/
theorem endlessIsa_below (instr : UInt8) (addr : Word) (size n : Nat) :
    (endlessIsa.recipe instr addr size).Below n := by
  simp only [endlessIsa]
  split <;>
    simp [Recipe.Below, Recipe.Step.below_iff, Recipe.Step.terms, Recipe.Step.Unnamed,
      Recipe.Term.Below, Expr.All, Recipe.Leaf.Below, Value.Below, Value.assignId?]

/-- Three runs are made while there is always a fourth to make, and the last
has decoded the same instruction four times. -/
theorem function_within_limits_endless :
    (∃ visits answer, Works endlessTask (atEntry endlessTask 0x1000) visits answer ∧
      function endlessTask 0x1000 = report 0x1000 answer ∧ visits.length ≤ 3 ∧
      (∀ v ∈ visits, ∃ pcs, v.Within endlessTask pcs) ∧
      ∀ v ∈ visits, v.after.defs.WalksReturn) ∧
    (function endlessTask 0x1000).1.toOption.map
        (fun f => (f.truncated, f.blocks.map fun b => (b.addr, b.stmts.length))) =
      some (true, [(0x1000, 2), (0x1001, 2), (0x1008, 4)]) := by
  refine ⟨?_, by decide +kernel⟩
  obtain ⟨visits, answer, hworks, hfunction, hruns, hwithin, hwalks⟩ :=
    (function_within_limits endlessTask 0x1000).2 (by decide)
  refine ⟨visits, answer, (hworks visits answer).2 ⟨rfl, rfl⟩, hfunction, hruns, hwithin,
    hwalks ⟨by decide, Recognizers.stacked_faithful _, Rule.standard_faithful, ?_⟩ ?_⟩
  · intro change h
    cases h
  · exact fun v _ n pc b _ _ instr size _ => endlessIsa_below instr pc size b.issued

/-- The only instruction jumps to assignment 0 without its lowest bit. It is
handed that number before it is taken, and then takes it for the result. -/
def circularTask : Task where
  target := endlessTask.target
  isa :=
    { Instr := Unit
      decode := fun _ _ => some ((), 1)
      recipe := fun _ _ _ => .step (.set 0 (.binary .and (.leaf (.value (.assign 0 (.bv 64))))
        (.leaf (.value (.bv 64 0xfffffffffffffffe))))) .done }
  image := .ofCode .little 0x1000 [0]
  known := []

/-- The only instruction puts a flag where an address belongs. -/
def misfitTask : Task where
  target := endlessTask.target
  isa :=
    { Instr := Unit
      decode := fun _ _ => some ((), 1)
      recipe := fun _ _ _ => .step (.set 0 (.leaf (.reg 2))) .done }
  image := .ofCode .little 0x1000 [0]
  known := []

/-- A block that jumps to a value which is defined by itself: whether that
is the return address is asked for ever. And a run that fails has no
block. -/
theorem function_walks_without_end :
    (∃ v answer, Works circularTask (atEntry circularTask 0x1000) [v] answer ∧
      ∃ regs, v.after.blocks.map (·.flow.regs?) = [some regs] ∧
        ∃ ip, regs.get? circularTask.target.machine.ip = some ip ∧
          ∀ dom : ReturnDomain, dom.defs = v.after.defs → ∀ known, ¬dom.TransferReturns ip known) ∧
    ∃ v answer, Works misfitTask (atEntry misfitTask 0x1000) [v] answer ∧
      ∀ out session, Disassembly.run misfitTask.source misfitTask.limits.maxInstructions v.addr
        v.regs v.before.session ≠ (.ok out, session) := by
  constructor
  · have hview : (nextVisit? circularTask (atEntry circularTask 0x1000)).map (fun v =>
        ((nextUnvisited? v.after.visited v.after.worklist).isNone, v.after.defs.assigned,
          v.after.blocks.map fun b => b.flow.regs?.bind (·.get? 0))) =
        some (true, [(0, .app (.binary .and (.assign 0 (.bv 64)) (.bv 64 0xfffffffffffffffe)))],
          [some (.assign 0 (.bv 64))]) := by decide +kernel
    obtain ⟨v, hv, hview⟩ := Option.map_eq_some_iff.1 hview
    obtain ⟨hdone, hview⟩ := Prod.mk.inj hview
    obtain ⟨hassigned, hblocks⟩ := Prod.mk.inj hview
    obtain ⟨b, hb, hip⟩ := List.map_eq_singleton_iff.1 hblocks
    obtain ⟨regs, hregs, hip⟩ := Option.bind_eq_some_iff.1 hip
    -- The queue is empty after the one run.
    refine ⟨v, _, ⟨[v], v.after, [], .cons (by decide) hv .nil,
      .done (Option.isNone_iff_eq_none.1 hdone), rfl⟩, regs, ?_, _, hip,
      fun dom hdom known h => h.not_mem_calls ?_⟩
    · rw [hb, List.map_singleton, hregs]
    · -- The left side of the mask is the value that is asked about.
      have hrhs : dom.defs.rhs? (.assign 0 (.bv 64)) =
          some (.app (.binary .and (.assign 0 (.bv 64)) (.bv 64 0xfffffffffffffffe))) := by
        rw [hdom]
        simp [Definitions.rhs?, Value.assignId?, hassigned]
      simp only [ReturnDomain.transferCalls, hrhs]
      exact List.mem_cons_self
  · have hfails : (Disassembly.run misfitTask.source misfitTask.limits.maxInstructions 0x1000
        (misfitTask.target.entryState 0x1000) {}).1.isOk = false := by decide +kernel
    cases hrun : Disassembly.run misfitTask.source misfitTask.limits.maxInstructions 0x1000
        (misfitTask.target.entryState 0x1000) {} with
    | mk result session =>
      rw [hrun] at hfails
      cases result with
      | ok out => cases hfails
      | error e =>
        refine ⟨_, _, ⟨[], _, _, .nil, .failed (by decide) rfl (visit_of_run_eq_error hrun), rfl⟩,
          fun out session hok => ?_⟩
        cases hrun.symm.trans hok

end Explore

end FlowRecovery
