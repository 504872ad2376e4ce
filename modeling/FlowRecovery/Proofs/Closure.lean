import FlowRecovery.Proofs.Coverage
import FlowRecovery.Proofs.Flow
import FlowRecovery.Proofs.Law
import FlowRecovery.Proofs.Scope.Explore

/-!
# `FlowRecovery.Proofs.Closure`: a discovered function is closed

A function that was explored to its end holds every place that its
blocks go on at: each of their successors is where a run starts, and the
first block of that run starts there too. All of these places, and all
entries of called functions, lie in executable memory
(`function_closed`).

A block that calls lists its callee (`Flow.callee?`), if that is known and
can be executed, and the list of the function is made of these. A target
may still change what is listed, and a tail call lists nothing
(`function_lists_no_callee`).

A successor is lost only if the instruction pointer cannot be moved to
it. Writing a register keeps its type, so an instruction pointer that
holds an address does so forever (`BlockLaw.atAddress`), and can always
be moved. The invariant of the exploration is `Progress.Closed`: every
successor has been visited or waits in the queue.
-/

set_option autoImplicit false

namespace FlowRecovery

/-! ### The instruction pointer holds an address -/

/-- The instruction pointer has a value of the address type. -/
def RegFile.AtAddress (m : Machine) (file : RegFile) : Prop :=
  ∃ v, file.get? m.ip = some v ∧ v.ty = m.addrTy

namespace RegFile

variable {m : Machine} {file file' : RegFile}

/-- Writing a register keeps it so: the instruction pointer can only be
replaced by a value of its own type. -/
theorem AtAddress.set (h : file.AtAddress m) {r : Reg} {v : Value}
    (hset : file.set r v = .ok file') : file'.AtAddress m := by
  obtain ⟨ip, hip, hty⟩ := h
  by_cases hr : m.ip = r
  · obtain ⟨⟨held, hheld, hsame⟩, -⟩ := set_eq_ok_iff.1 hset
    rw [← hr, hip] at hheld
    cases hheld
    refine ⟨v, ?_, hsame.symm.trans hty⟩
    rw [get?_of_set hset, if_pos hr]
  · refine ⟨ip, ?_, hty⟩
    rw [get?_of_set hset, if_neg hr]
    exact hip

/-- So does a write that is dropped if it does not fit. -/
theorem AtAddress.setIfFits (h : file.AtAddress m) (r : Reg) (v : Value) :
    (file.setIfFits r v).AtAddress m := by
  unfold RegFile.setIfFits
  split
  · rename_i hset
    exact h.set hset
  · exact h

/-- It can be moved to any address. -/
theorem AtAddress.move (h : file.AtAddress m) (a : Word) :
    ∃ moved, file.set m.ip (m.addr a) = .ok moved ∧ moved.AtAddress m := by
  obtain ⟨ip, hip, hty⟩ := h
  have hset : file.set m.ip (m.addr a) = .ok ⟨file.values.set m.ip (m.addr a)⟩ :=
    set_eq_ok_iff.2 ⟨⟨ip, hip, hty⟩, rfl⟩
  exact ⟨_, hset, AtAddress.set ⟨ip, hip, hty⟩ hset⟩

/-- After a call the instruction pointer is at the return address, whatever
was in it. -/
theorem AtAddress.postCallRegs (h : file.AtAddress m) (d : Definitions) (returnAddr : Word) :
    (m.postCallRegs d file returnAddr).AtAddress m := by
  obtain ⟨ip, hip, hty⟩ := h
  have hip : file.values[m.ip]? = some ip := hip
  have hafter : m.afterCall d returnAddr m.ip ip = m.addr returnAddr := if_pos rfl
  have hfits : (m.addr returnAddr).ty = ip.ty := hty.symm
  refine ⟨m.addr returnAddr, ?_, rfl⟩
  simp only [Machine.postCallRegs, get?, List.getElem?_mapIdx, hip, Option.map_some, hafter,
    if_pos hfits]

end RegFile

/-- All blocks leave an address in the instruction pointer. -/
def BlockLaw.atAddress (m : Machine) : BlockLaw where
  stmt _ := True
  regs := RegFile.AtAddress m
  exit _ := True
  writable _ := True
  app _ _ _ _ _ := trivial
  load _ _ _ := trivial
  prim _ _ := trivial
  unnamed _ _ := trivial
  set _ _ _ _ h _ hset := h.set hset
  fetch _ := trivial
  branch _ _ _ := trivial
  arch _ _ _ := trivial

/-- Nothing else is asked of blocks, so every source keeps this law. -/
theorem Disassembly.lawful_atAddress (m : Machine) (src : Source) :
    src.Lawful (.atAddress m) where
  machine _ _ := trivial
  recipes _ _ _ := Recipe.allSteps_of_forall
    (fun _ => Recipe.Step.lawful_of_emit (fun _ => trivial) fun _ _ => trivial) _

/-- At the entry the instruction pointer holds its entry value, and entry
values of the target keep the type of what they replace. -/
theorem Target.entryState_atAddress {t : Target}
    (hip : t.machine.regTy? t.machine.ip = some t.machine.addrTy) (entry : Word) :
    (t.entryState entry).AtAddress t.machine := by
  -- The entry values of the target are written one after the other.
  refine List.foldlRecOn _ _ ?_ fun file hfile e _ => hfile.setIfFits e.1 e.2
  obtain ⟨reg, hreg, hty⟩ := Option.map_eq_some_iff.1 hip
  refine ⟨RegFile.entryValue t.machine t.machine.ip reg.ty, ?_, ?_⟩
  · rw [RegFile.get?_symbolic, hreg]
    rfl
  · rw [RegFile.ty_entryValue, hty]

/-! ### Where the rules lead -/

/-- The function that is called, if its address is known and lies in
executable memory. A tail call is a jump and calls nothing. -/
def Flow.callee? (m : Machine) (img : Image) : Flow → Option Word
  | .call regs _ => (regs.get? m.ip).bind (Value.executableAddress? img)
  | _ => none

/-- What is called can be executed. -/
theorem Flow.isExecutable_of_callee? {m : Machine} {img : Image} {flow : Flow} {a : Word}
    (h : flow.callee? m img = some a) : img.isExecutable a = true := by
  cases flow with
  | call regs returnAddr =>
    obtain ⟨ip, -, haddr⟩ := Option.bind_eq_some_iff.1 h
    exact (Value.address?_of_executableAddress? haddr).2
  | tailCall | jump | branch | ret | conditionalReturn | indirectJump | innerBranch | failed
  | arch | unclassified => cases h

/-- The block has the number it should have and starts where it should, has
the given registers, leads to executable memory only, and lists the function
that it calls. Without registers it leads nowhere. -/
structure FlowBlock.Leads (s : Setting) (index : BlockIndex) (addr : Word)
    (held : Option RegFile) (b : FlowBlock) : Prop where
  index : b.index = index
  addr : b.addr = addr
  regs : b.flow.regs? = held
  ends : held = none → b.successors = []
  successors : ∀ a ∈ b.successors, s.image.isExecutable a = true
  functions : b.newFunctions = (b.flow.callee? s.machine s.image).toList

/-- With registers, nothing is asked of where the block ends. -/
theorem FlowBlock.Leads.of_regs {s : Setting} {index : BlockIndex} {addr : Word} {b : FlowBlock}
    {regs : RegFile} (hindex : b.index = index) (haddr : b.addr = addr)
    (hregs : b.flow.regs? = some regs)
    (hsuccessors : ∀ a ∈ b.successors, s.image.isExecutable a = true)
    (hfunctions : b.newFunctions = (b.flow.callee? s.machine s.image).toList) :
    b.Leads s index addr (some regs) where
  index := hindex
  addr := haddr
  regs := hregs
  ends hnone := by cases hnone
  successors := hsuccessors
  functions := hfunctions

namespace Candidate

variable {c : Candidate} {block : FlowBlock}

/-- The block is the candidate's, and leads to executable memory only. -/
abbrev Leads (c : Candidate) (block : FlowBlock) : Prop :=
  block.Leads c.setting c.index c.addr (some c.regs)

/-- A flow that calls nothing leads where its successors are. -/
theorem leads_withFlow {flow : Flow} (hflow : flow.regs? = some c.regs)
    (hcallee : flow.callee? c.setting.machine c.setting.image = none) {successors : List Word}
    (h : ∀ a ∈ successors, c.setting.image.isExecutable a = true) :
    c.Leads (c.withFlow flow successors) :=
  .of_regs rfl rfl hflow h (congrArg Option.toList hcallee).symm

/-- Where the instruction pointer of a candidate leads can be executed. -/
theorem isExecutable_of_target? {a : Word} (h : c.target? = some a) :
    c.setting.image.isExecutable a = true := by
  obtain ⟨v, -, haddr⟩ := Option.bind_eq_some_iff.1 h
  exact (Value.address?_of_executableAddress? haddr).2

end Candidate

/-- Every rule of the library leads to executable memory only. -/
theorem Rule.leads {r : Rule} (hr : r ∈ Rule.conditionalReturn :: Rule.standard) {c : Candidate}
    {block : FlowBlock} (h : r.apply c = .ok (some block)) : c.Leads block := by
  simp only [Rule.standard, List.mem_cons, List.not_mem_nil, or_false] at hr
  obtain rfl | rfl | rfl | rfl | rfl | rfl := hr
  · -- A conditional return goes on at its other arm, which has been checked.
    obtain ⟨cond, onTrue, onFalse, returnsWhen, next, -, -, -, hexec, rfl⟩ :=
      conditionalReturn_eq_some h
    exact c.leads_withFlow rfl rfl (by simpa using hexec)
  · obtain ⟨cond, onTrue, onFalse, t, f, -, ht, hf, rfl⟩ := branch_eq_some h
    have ht := (Value.address?_of_executableAddress? ht).2
    have hf := (Value.address?_of_executableAddress? hf).2
    exact c.leads_withFlow rfl rfl (by simpa using ⟨ht, hf⟩)
  · -- A call comes back to where it says, unless that cannot be executed.
    simp only [call, Except.ok.injEq] at h
    split at h
    · cases h
      exact .of_regs rfl rfl rfl (fun a ha => (List.mem_filter.1 ha).2) rfl
    · cases h
  · simp only [ret, Except.ok.injEq] at h
    split at h
    · cases h
      exact .of_regs rfl rfl rfl (fun _ ha => absurd ha List.not_mem_nil) rfl
    · cases h
  · -- A tail call leaves the function, so it has no successors.
    simp only [tailCall, Except.ok.injEq] at h
    split at h
    · split at h
      · cases h
        exact c.leads_withFlow rfl rfl fun _ ha => absurd ha List.not_mem_nil
      · cases h
    · cases h
  · simp only [jump, Except.ok.injEq] at h
    split at h
    · rename_i target htarget
      cases h
      exact c.leads_withFlow rfl rfl (by simpa using c.isExecutable_of_target? htarget)
    · cases h

/-- The block as the rules see it. -/
def Block.candidate (b : Block) (s : Setting) (regs : RegFile) : Candidate :=
  { setting := s, index := b.index, addr := b.addr, stmts := b.stmts, regs }

/-- The block with its flow. -/
def Block.withFlow (b : Block) (flow : Flow) (successors : List Word := []) : FlowBlock :=
  { index := b.index, addr := b.addr, stmts := b.stmts, flow, successors }

namespace Chain

/-- A match comes from one of the rules. -/
theorem exists_of_firstMatch {c : Candidate} {block : FlowBlock} {rules : List Rule}
    (h : firstMatch c rules = .ok (some block)) :
    ∃ r ∈ rules, r.apply c = .ok (some block) := by
  induction rules with
  | nil => cases h
  | cons r rest ih =>
    rcases firstMatch_cons_eq_ok h with ⟨found, happly, hfound⟩ | ⟨-, hrest⟩
    · cases hfound
      exact ⟨r, List.mem_cons_self, happly⟩
    · obtain ⟨r', hr', happly⟩ := ih hrest
      exact ⟨r', List.mem_cons_of_mem r hr', happly⟩

variable {chain : Chain}

/-- A candidate is explained by one of the rules, or is an indirect
jump. -/
theorem exists_of_classify {c : Candidate} {block : FlowBlock}
    (h : chain.classify c = .ok block) :
    (∃ r ∈ chain.rules, r.apply c = .ok (some block)) ∨
      block = c.withFlow (.indirectJump c.regs) := by
  rw [classify] at h
  cases hmatch : firstMatch c chain.rules with
  | error e =>
    rw [hmatch] at h
    cases h
  | ok answer =>
    rw [hmatch] at h
    cases answer with
    | some found =>
      cases h
      exact Or.inl (exists_of_firstMatch hmatch)
    | none =>
      by_cases hfallback : chain.indirectFallback = true
      · simp only [bind, Except.bind, hfallback, if_true] at h
        cases h
        exact Or.inr rfl
      · simp only [bind, Except.bind, hfallback] at h
        cases h

/-- The ways a finished block is classified: by the rules, if it goes on
at its instruction pointer, and by its exit otherwise. -/
inductive Classifies (chain : Chain) (s : Setting) (b : Block) : FlowBlock → Prop
  | explained {regs : RegFile} {found : FlowBlock} (hexit : b.exit = .fetch regs)
      (hclassify : chain.classify (b.candidate s regs) = .ok found) : Classifies chain s b found
  | unexplained {regs : RegFile} {tried : Nat} (hexit : b.exit = .fetch regs)
      (hclassify : chain.classify (b.candidate s regs) = .error (.noRuleMatched tried)) :
      Classifies chain s b
        (b.withFlow (.unclassified regs (ClassifyError.noRuleMatched tried).message))
  | branch {cond : Value} {t f : BlockIndex} (hexit : b.exit = .branch cond t f) :
      Classifies chain s b (b.withFlow (.innerBranch cond t f))
  | failed {regs : RegFile} {addr : Word} {reason : String}
      (hexit : b.exit = .failed regs addr reason) :
      Classifies chain s b (b.withFlow (.failed regs addr reason))
  | arch {regs : RegFile} {name : String} {args : List Value}
      (hexit : b.exit = .arch regs name args) :
      Classifies chain s b (b.withFlow (.arch regs name args)
        ((regs.get? s.machine.ip).bind (Value.executableAddress? s.image)).toList)

/-- What a block is classified as shows in which of these ways it was. One
case for each exit. -/
theorem classifies_of_classifyExit {s : Setting} {b : Block} {found : FlowBlock}
    (h : chain.classifyExit s b = .ok found) : Classifies chain s b found := by
  unfold classifyExit at h
  cases hexit : b.exit with
  | branch cond t f =>
    rw [hexit] at h
    cases h
    exact .branch hexit
  | failed regs addr reason =>
    rw [hexit] at h
    cases h
    exact .failed hexit
  | arch regs name args =>
    rw [hexit] at h
    cases h
    exact .arch hexit
  | fetch regs =>
    -- The rules are asked, and only their last resort may be missing.
    simp only [hexit] at h
    cases hclassify : chain.classify (b.candidate s regs) with
    | ok block =>
      rw [Block.candidate] at hclassify
      rw [hclassify] at h
      cases h
      exact .explained hexit hclassify
    | error e =>
      rw [Block.candidate] at hclassify
      rw [hclassify] at h
      cases e with
      | noRuleMatched tried =>
        cases h
        exact .unexplained hexit hclassify
      | notExecutable | infeasibleBranch => cases h

variable
  (hrules : ∀ r ∈ chain.rules, r ∈ Rule.conditionalReturn :: Rule.standard)

include hrules

/-- By a rule or by the last resort, a candidate leads to executable memory
only. -/
theorem classify_leads {c : Candidate} {block : FlowBlock} (h : chain.classify c = .ok block) :
    c.Leads block := by
  rcases exists_of_classify h with ⟨r, hr, happly⟩ | rfl
  · exact Rule.leads (hrules r hr) happly
  · exact c.leads_withFlow rfl rfl fun _ ha => absurd ha List.not_mem_nil

/-- A classified block leads to executable memory only, whatever its
exit. -/
theorem classifyExit_leads {s : Setting} {b : Block} {found : FlowBlock}
    (h : chain.classifyExit s b = .ok found) : found.Leads s b.index b.addr b.exit.regs? := by
  have hnone : ∀ a ∈ ([] : List Word), s.image.isExecutable a = true :=
    fun _ ha => absurd ha List.not_mem_nil
  cases classifies_of_classifyExit h with
  | explained hexit hclassify =>
    rw [hexit]
    exact classify_leads hrules hclassify
  | unexplained hexit =>
    rw [hexit]
    exact .of_regs rfl rfl rfl hnone rfl
  | branch hexit =>
    rw [hexit]
    exact ⟨rfl, rfl, rfl, fun _ => rfl, hnone, rfl⟩
  | failed hexit =>
    rw [hexit]
    exact .of_regs rfl rfl rfl hnone rfl
  | arch hexit =>
    rw [hexit]
    refine .of_regs rfl rfl rfl (fun a ha => ?_) rfl
    obtain ⟨ip, -, haddr⟩ := Option.bind_eq_some_iff.1 (Option.mem_toList.1 ha)
    exact (Value.address?_of_executableAddress? haddr).2

end Chain

/-- The target's last change to a block leaves its flow and its
successors alone. -/
def Target.KeepsFlow (t : Target) : Prop :=
  ∀ b, (t.amend.getD id b).flow = b.flow ∧ (t.amend.getD id b).successors = b.successors

/-- The target's last change to a block adds no called function. -/
def Target.AddsNoCalls (t : Target) : Prop :=
  ∀ b, (t.amend.getD id b).newFunctions ⊆ b.newFunctions

/-- The target's last change to a block leaves the called functions as they
are. -/
def Target.KeepsCalls (t : Target) : Prop :=
  ∀ b, (t.amend.getD id b).newFunctions = b.newFunctions

namespace Explore

variable {task : Task}

/-- Pruning changes the statements of a block only. -/
theorem pruneBlock_eq (effects : Effects) (b : FlowBlock) :
    ∃ stmts, pruneBlock effects b = { b with stmts } := by
  unfold pruneBlock
  split
  · exact ⟨b.stmts, rfl⟩
  · exact ⟨_, rfl⟩

/-- Once flow and successors are kept, finishing a block changes no more
than its statements and what the target lists as called. -/
theorem finish_leads (hkeeps : task.target.KeepsFlow) (raw : FlowBlock) :
    (finish task raw).flow = raw.flow ∧ (finish task raw).successors = raw.successors ∧
      (finish task raw).newFunctions = (task.target.amend.getD id raw).newFunctions := by
  obtain ⟨hflow, hsuccessors⟩ := hkeeps raw
  obtain ⟨stmts, hpruned⟩ := pruneBlock_eq task.target.effects (task.target.amend.getD id raw)
  rw [finish, hpruned]
  exact ⟨hflow, hsuccessors, rfl⟩

/-- The registers at a successor are found. -/
theorem edgeState?_atAddress {b : FlowBlock} {regs : RegFile} (hregs : b.flow.regs? = some regs)
    (haddress : regs.AtAddress task.target.machine) (defs : Definitions) (a : Word) :
    ∃ s, edgeState? task defs b a = some s ∧ s.AtAddress task.target.machine := by
  rw [edgeState?, hregs]
  cases hflow : b.flow with
  | call => exact ⟨_, rfl, haddress.postCallRegs defs a⟩
  | tailCall | jump | branch | ret | conditionalReturn | indirectJump | innerBranch | failed
  | arch | unclassified =>
    obtain ⟨moved, hmoved, hat⟩ := haddress.move a
    refine ⟨moved, ?_, hat⟩
    simp only [hmoved]
    rfl

/-! ### One run -/

/-- The run starts at `a`, and so does the first block that it
disassembles and records. -/
def Visit.HeadsAt (task : Task) (v : Visit) (a : Word) : Prop :=
  v.addr = a ∧ ∃ out session first others raw more,
    Disassembly.run task.source task.limits.maxInstructions a v.regs v.before.session =
      (.ok out, session) ∧
    out.blocks = first :: others ∧ first.addr = a ∧
    task.target.chain.classifyExit (task.setting v.after.defs) first = .ok raw ∧ raw.addr = a ∧
    v.blocks = finish task raw :: more

/-- What is listed as called is what the block calls, as far as the target's
last change leaves that alone. -/
structure ListsCalls (task : Task) (b : FlowBlock) : Prop where
  added : task.target.AddsNoCalls →
    ∀ a ∈ b.newFunctions, b.flow.callee? task.target.machine task.image = some a
  kept : task.target.KeepsCalls →
    b.newFunctions = (b.flow.callee? task.target.machine task.image).toList

/-- What has been found leads to executable memory only, and every
successor has been visited or waits in the queue. -/
structure Progress.Closed (task : Task) (p : Progress) : Prop where
  taken : p.Taken
  queue : ∀ work ∈ p.worklist, work.2.AtAddress task.target.machine
  executable : ∀ b ∈ p.blocks, ∀ a ∈ b.successors, task.image.isExecutable a = true
  followed : ∀ b ∈ p.blocks, ∀ a ∈ b.successors, a ∈ p.visited ∨ a ∈ p.worklist.map Prod.fst
  calls : p.newFunctions = p.blocks.flatMap FlowBlock.newFunctions
  callees : ∀ b ∈ p.blocks, ListsCalls task b
  whole : p.truncated = false

/-- At the entry nothing has been found yet, and only the entry waits. -/
theorem closed_atEntry
    (hip : task.target.machine.regTy? task.target.machine.ip = some task.target.machine.addrTy)
    (entry : Word) : (atEntry task entry).Closed task where
  taken := rfl
  queue work hwork := by
    rw [List.mem_singleton.1 hwork]
    exact Target.entryState_atAddress hip entry
  executable _ hb := absurd hb List.not_mem_nil
  followed _ hb := absurd hb List.not_mem_nil
  calls := rfl
  callees _ hb := absurd hb List.not_mem_nil
  whole := rfl

/-- Nothing is dropped from the queue but what has been visited. -/
theorem mem_rest_of_nextUnvisited? {visited : List Word} {queue rest : List (Word × RegFile)}
    {work : Word × RegFile} (h : nextUnvisited? visited queue = some (work, rest)) {a : Word}
    (ha : a ∈ queue.map Prod.fst) : a ∈ work.1 :: visited ∨ a ∈ rest.map Prod.fst := by
  induction queue with
  | nil => cases h
  | cons first others ih =>
    rw [List.map_cons, List.mem_cons] at ha
    rw [nextUnvisited?] at h
    by_cases hvisited : visited.contains first.1 = true
    · rw [if_pos hvisited] at h
      rcases ha with rfl | ha
      · exact Or.inl (List.mem_cons_of_mem _ (List.contains_iff_mem.1 hvisited))
      · exact ih h ha
    · rw [if_neg hvisited] at h
      cases h
      rcases ha with rfl | ha
      · exact Or.inl List.mem_cons_self
      · exact Or.inr ha

/-- A block that is found is one that was classified, and then finished. -/
theorem classified?_eq_some {defs : Definitions} {b : Block} {found : FlowBlock}
    (h : classified? task defs b = some found) :
    ∃ raw, task.target.chain.classifyExit (task.setting defs) b = .ok raw ∧
      found = finish task raw := by
  obtain ⟨raw, hraw, rfl⟩ := Option.map_eq_some_iff.1 h
  refine ⟨raw, ?_, rfl⟩
  cases hexit : task.target.chain.classifyExit (task.setting defs) b with
  | error e =>
    rw [hexit] at hraw
    cases hraw
  | ok block =>
    rw [hexit] at hraw
    cases hraw
    rfl

/-- All that one run changes but for the counts, given what it
disassembles and finds and what is left of the queue. -/
structure Visit.Finds (task : Task) (p : Progress) (v : Visit) (rest : List (Word × RegFile))
    (out : Disassembly) (session : Disassembly.Session) (found : List FlowBlock) : Prop where
  next : nextUnvisited? p.visited p.worklist = some ((v.addr, v.regs), rest)
  before : v.before.session = p.session
  run : Disassembly.run task.source task.limits.maxInstructions v.addr v.regs p.session =
    (.ok out, session)
  discovery : v.after.session.discovery = session.discovery
  classified : out.blocks.mapM (classified? task v.after.defs) = some found
  own : v.blocks = found
  blocks : v.after.blocks = p.blocks ++ found
  visited : v.after.visited = v.addr :: p.visited
  worklist : v.after.worklist = rest ++ found.flatMap (newWork task v.after.defs v.after.visited)
  newFunctions : v.after.newFunctions = p.newFunctions ++ found.flatMap FlowBlock.newFunctions
  truncated : v.after.truncated = p.truncated

/-- Every visit finds something in this sense. -/
theorem exists_finds {p : Progress} {v : Visit} (hv : nextVisit? task p = some v) :
    ∃ rest out session found, v.Finds task p rest out session found := by
  obtain ⟨rest, hnext, hbefore, hvisit⟩ := nextVisit?_eq_some_iff.1 hv
  obtain ⟨out, session, found, tally, hrun, hfound, hafter⟩ := visit_eq_ok hvisit
  rw [hbefore] at hrun hfound hafter
  refine ⟨rest, out, session, found, ?_⟩
  constructor
  case next => exact hnext
  case run => exact hrun
  case before =>
    rw [hbefore]
    rfl
  case classified =>
    rw [hafter]
    exact hfound
  case own =>
    rw [Visit.blocks, hafter, hbefore]
    exact List.drop_left
  case discovery | blocks | visited | worklist | newFunctions | truncated =>
    rw [hafter]
    rfl

/-- A block leads to executable memory only, and all of its successors are
queued unless they have been visited. -/
structure ClosedBlock (task : Task) (defs : Definitions) (b : FlowBlock) : Prop where
  executable : ∀ a ∈ b.successors, task.image.isExecutable a = true
  callees : ListsCalls task b
  queue : ∀ visited, ∀ work ∈ newWork task defs visited b, work.2.AtAddress task.target.machine
  followed : ∀ visited, ∀ a ∈ b.successors,
    a ∈ visited ∨ a ∈ (newWork task defs visited b).map Prod.fst

section Task

variable (hrules : ∀ r ∈ task.target.chain.rules, r ∈ Rule.conditionalReturn :: Rule.standard)
  (hkeeps : task.target.KeepsFlow)

include hrules hkeeps

/-- A block that leaves an address in the instruction pointer is found
closed. -/
theorem classified?_closed {defs : Definitions} {b : Block}
    (hb : b.Lawful (.atAddress task.target.machine)) {found : FlowBlock}
    (h : classified? task defs b = some found) : ClosedBlock task defs found := by
  obtain ⟨raw, hraw, rfl⟩ := classified?_eq_some h
  obtain ⟨hflow, hsuccessors, hcalls⟩ := finish_leads hkeeps raw
  have hleads := Chain.classifyExit_leads hrules hraw
  -- A block without registers has no successors; with registers, none is lost.
  have hedge : ∀ a ∈ (finish task raw).successors, ∃ s,
      edgeState? task defs (finish task raw) a = some s ∧ s.AtAddress task.target.machine := by
    intro a ha
    cases hheld : b.exit.regs? with
    | none =>
      rw [hsuccessors, hleads.ends hheld] at ha
      cases ha
    | some regs =>
      have hregs : (finish task raw).flow.regs? = some regs := by rw [hflow, hleads.regs, hheld]
      exact edgeState?_atAddress hregs (hb.regs regs hheld) defs a
  refine ⟨fun a ha => hleads.successors a (hsuccessors ▸ ha),
    ⟨fun hadds a ha => ?_, fun hkept => ?_⟩, fun visited work hwork => ?_, fun visited a ha => ?_⟩
  · rw [hcalls] at ha
    have hmem := hadds raw ha
    rw [hleads.functions] at hmem
    rw [hflow]
    exact Option.mem_toList.1 hmem
  · rw [hcalls, hkept raw, hflow]
    exact hleads.functions
  -- What is queued has been given registers for its edge.
  · obtain ⟨a, ha, hsome⟩ := List.mem_filterMap.1 hwork
    obtain ⟨s, hs, haddress⟩ := hedge a ha
    split at hsome
    · cases hsome
    · rw [hs] at hsome
      cases hsome
      exact haddress
  · -- Only what has been visited is not queued.
    by_cases hvisited : visited.contains a = true
    · exact Or.inl (List.contains_iff_mem.1 hvisited)
    · obtain ⟨s, hs, -⟩ := hedge a ha
      refine Or.inr (List.mem_map.2 ⟨(a, s), List.mem_filterMap.2 ⟨a, ha, ?_⟩, rfl⟩)
      rw [if_neg hvisited, hs]
      rfl

omit hrules hkeeps in
/-- The first block that a run records starts where the run does. -/
theorem headsAt_visit
    (hplace : ∀ s b found, task.target.chain.classifyExit s b = .ok found → found.addr = b.addr)
    {p : Progress} {v : Visit} (hv : nextVisit? task p = some v)
    (htaken : p.Taken) : v.HeadsAt task v.addr := by
  obtain ⟨rest, out, session, found, hfinds⟩ := exists_finds hv
  obtain ⟨first, others, hout, haddr⟩ := Disassembly.run_head htaken hfinds.run
  have hfound := hfinds.classified
  rw [hout, List.mapM_cons] at hfound
  obtain ⟨head, hhead, h⟩ := Option.bind_eq_some_iff.1 hfound
  obtain ⟨more, -, h⟩ := Option.bind_eq_some_iff.1 h
  obtain ⟨raw, hraw, rfl⟩ := classified?_eq_some hhead
  refine ⟨rfl, out, session, first, others, raw, more, hfinds.before ▸ hfinds.run, hout, haddr,
    hraw, (hplace _ _ _ hraw).trans haddr, ?_⟩
  rw [hfinds.own]
  exact (Option.some.inj h).symm

/-- One run keeps everything closed. -/
theorem closed_visit {p : Progress} {v : Visit} (hv : nextVisit? task p = some v)
    (hp : p.Closed task) : v.after.Closed task := by
  obtain ⟨rest, out, session, found, hfinds⟩ := exists_finds hv
  obtain ⟨hmem, hsub⟩ := mem_of_nextUnvisited? hfinds.next
  obtain ⟨hlawful, htaken⟩ := Disassembly.lawful_run
    (Disassembly.lawful_atAddress task.target.machine task.source) (fun _ _ _ => trivial)
    (hp.queue _ hmem) hp.taken hfinds.run
  have hclosed : ∀ b ∈ found, ClosedBlock task v.after.defs b := by
    intro b hb
    obtain ⟨raw, hraw, hclassified⟩ := exists_of_mem_mapM hfinds.classified hb
    exact classified?_closed hrules hkeeps (hlawful raw hraw) hclassified
  -- Each block was there before the run or is one of those it has found.
  have hblock {b : FlowBlock} (hb : b ∈ v.after.blocks) : b ∈ p.blocks ∨ b ∈ found := by
    rw [hfinds.blocks] at hb
    exact List.mem_append.1 hb
  constructor
  case taken => exact (taken_of_nextVisit? hv hp.taken).2
  case whole => rw [hfinds.truncated, hp.whole]
  case queue =>
    intro work hwork
    rw [hfinds.worklist] at hwork
    rcases List.mem_append.1 hwork with hold | hnew
    · exact hp.queue work (hsub hold)
    · obtain ⟨b, hb, hwork⟩ := List.mem_flatMap.1 hnew
      exact (hclosed b hb).queue _ work hwork
  case executable =>
    intro b hb
    rcases hblock hb with hold | hnew
    · exact hp.executable b hold
    · exact (hclosed b hnew).executable
  case followed =>
    intro b hb a ha
    rw [hfinds.worklist, List.map_append, List.mem_append]
    rcases hblock hb with hold | hnew
    · -- The next address leaves the queue and is visited; the others stay.
      rw [hfinds.visited]
      rcases hp.followed b hold a ha with hdone | hwaits
      · exact Or.inl (List.mem_cons_of_mem _ hdone)
      · exact (mem_rest_of_nextUnvisited? hfinds.next hwaits).imp id Or.inl
    · refine ((hclosed b hnew).followed _ a ha).imp id fun hqueued => Or.inr ?_
      obtain ⟨work, hwork, rfl⟩ := List.mem_map.1 hqueued
      exact List.mem_map_of_mem (List.mem_flatMap.2 ⟨b, hnew, hwork⟩)
  case calls =>
    rw [hfinds.newFunctions, hp.calls, hfinds.blocks, List.flatMap_append]
  case callees =>
    intro b hb
    rcases hblock hb with hold | hnew
    · exact hp.callees b hold
    · exact (hclosed b hnew).callees

/-- All runs together. -/
theorem Makes.closed {p q : Progress} {visits : List Visit} (h : Makes task p visits q)
    (hp : p.Closed task) : q.Closed task ∧ ∀ v ∈ visits, v.HeadsAt task v.addr := by
  have hone : ∀ p v, nextVisit? task p = some v → p.Closed task → v.after.Closed task :=
    fun _ _ hv hp => closed_visit hrules hkeeps hv hp
  refine ⟨h.preserves hone hp, fun v hv => ?_⟩
  obtain ⟨earlier, later, p', -, hearlier, hv, -⟩ := h.split hv
  exact headsAt_visit (fun _ _ _ h => (Chain.classifyExit_leads hrules h).addr) hv
    (hearlier.preserves hone hp).taken

end Task

/-! ### The whole function -/

/-- Duplicates are gone. Induction on the length, because a step also
removes later copies of its address. -/
theorem nodup_eraseDups (addrs : List Word) : addrs.eraseDups.Nodup := by
  induction hlength : addrs.length using Nat.strongRecOn generalizing addrs with
  | ind n ih =>
    cases addrs with
    | nil => exact List.nodup_nil
    | cons a rest =>
      rw [List.eraseDups_cons, List.nodup_cons]
      refine ⟨by simp, ih _ ?_ _ rfl⟩
      have hfilter := List.length_filter_le (fun b => !b == a) rest
      rw [List.length_cons] at hlength
      omega

/-- No address is listed twice, so the order is strict. -/
theorem sortedAddresses_strict (addrs : List Word) :
    (sortedAddresses addrs).Pairwise (· < ·) := by
  have hnodup : (sortedAddresses addrs).Nodup :=
    (List.mergeSort_perm _ _).nodup_iff.2 (nodup_eraseDups addrs)
  refine ((sortedAddresses_pairwise addrs).and hnodup).imp fun hab => ?_
  exact BitVec.lt_of_le_ne hab.1 hab.2

/-- A discovered function is closed and stays in executable memory.

Its blocks are those of its runs, and no two runs start at the same
address. All successors of its blocks can be executed, and so can the
functions that they list as called, unless the target adds others. What the
blocks list, other than the function itself, is listed for the function in
strictly increasing order. If the target leaves that alone, these are the
callees of the blocks that call. Each successor is where a run starts, and
the first block of that run starts there too, unless the limit on blocks
was reached. -/
theorem function_closed {task : Task}
    (hrules : ∀ r ∈ task.target.chain.rules, r ∈ Rule.conditionalReturn :: Rule.standard)
    (hip : task.target.machine.regTy? task.target.machine.ip = some task.target.machine.addrTy)
    (hkeeps : task.target.KeepsFlow) {entry : Word} {f : Function} {tally : Tally}
    (h : function task entry = (.ok f, tally)) :
    ∃ visits p, Makes task (atEntry task entry) visits p ∧
      f.blocks = visits.flatMap Visit.blocks ∧ (visits.map Visit.addr).Nodup ∧
      (∀ b ∈ f.blocks, ∀ a ∈ b.successors, task.image.isExecutable a = true) ∧
      (task.target.AddsNoCalls →
        ∀ b ∈ f.blocks, ∀ a ∈ b.newFunctions, task.image.isExecutable a = true) ∧
      f.newFunctions.Pairwise (· < ·) ∧
      (∀ a, a ∈ f.newFunctions ↔ a ≠ entry ∧ ∃ b ∈ f.blocks, a ∈ b.newFunctions) ∧
      (task.target.KeepsCalls → ∀ a, a ∈ f.newFunctions ↔
        a ≠ entry ∧ ∃ b ∈ f.blocks, b.flow.callee? task.target.machine task.image = some a) ∧
      (f.truncated = false →
        ∀ b ∈ f.blocks, ∀ a ∈ b.successors, ∃ w ∈ visits, w.HeadsAt task a) ∧
      (f.truncated = true → task.limits.maxBlocks ≤ f.blocks.length) := by
  obtain ⟨visits, p, hmakes, hblocks, hfunctions, hend⟩ := exists_makes_of_function h
  obtain ⟨hp, hheads⟩ := hmakes.closed hrules hkeeps (closed_atEntry hip entry)
  -- What a function has to show is what its runs have found.
  have hruns : p.blocks = visits.flatMap Visit.blocks := hmakes.blocks_eq
  have hvisited : p.visited = (visits.map Visit.addr).reverse := by
    rw [hmakes.visited_eq]
    exact List.append_nil _
  -- The list of the function is what its blocks list, sorted and without the entry.
  have hlisted (a : Word) : a ∈ sortedAddresses (p.newFunctions.filter (· ≠ entry)) ↔
      a ≠ entry ∧ ∃ b ∈ p.blocks, a ∈ b.newFunctions := by
    rw [mem_sortedAddresses, List.mem_filter, hp.calls, List.mem_flatMap, decide_eq_true_iff,
      and_comm]
  rw [hfunctions, hblocks]
  refine ⟨visits, p, hmakes, hruns, hmakes.nodup_addr, hp.executable, ?_,
    sortedAddresses_strict _, hlisted, ?_, ?_, ?_⟩
  · intro hadds b hb a ha
    exact Flow.isExecutable_of_callee? ((hp.callees b hb).added hadds a ha)
  · intro hkept a
    rw [hlisted]
    refine and_congr_right fun _ => exists_congr fun b => and_congr_right fun hb => ?_
    rw [(hp.callees b hb).kept hkept, Option.mem_toList]
  · intro hfull b hb a ha
    rcases hend with ⟨-, hnext⟩ | ⟨hcut, -⟩
    · -- Nothing waits in the queue that has not been visited.
      have hdone : a ∈ p.visited := by
        rcases hp.followed b hb a ha with hdone | hwaits
        · exact hdone
        · obtain ⟨work, hwork, rfl⟩ := List.mem_map.1 hwaits
          exact nextUnvisited?_eq_none_iff.1 hnext work hwork
      rw [hvisited, List.mem_reverse] at hdone
      obtain ⟨w, hw, rfl⟩ := List.mem_map.1 hdone
      exact ⟨w, hw, hheads w hw⟩
    · rw [hcut] at hfull
      cases hfull
  · intro hcut
    rcases hend with ⟨htruncated, -⟩ | ⟨-, hlimit⟩
    · rw [htruncated, hp.whole] at hcut
      cases hcut
    · exact hlimit

/-- Four instructions of one byte each: keep the return address, call the
function at `0x1006`, go back or on as the flag says, and return. -/
def retryIsa : InstructionSet where
  Instr := UInt8
  decode bytes _ := bytes.head?.map (·, 1)
  recipe instr addr _ :=
    match instr with
    | 1 => .step (.set 3 (.leaf (.reg 2))) (.step .advance .done)
    | 2 => .step (.set 2 (.leaf (.value (.ofWord 32 (addr + 1))))) (.step (.setIp 0x1006) .done)
    | 3 => .step (.set 0 (.select (.leaf (.reg 4)) (.leaf (.value (.bv 32 0x1001)))
        (.leaf (.value (.bv 32 0x1003))))) .done
    | 4 => .step (.set 0 (.leaf (.reg 3))) .done
    | _ => .step (.fail "unknown") .done

/-- A function that calls another one until the flag is clear. -/
def retryTask (maxBlocks : Nat) : Task where
  target :=
    { machine := { diamondMachine with calleeSaved := [3] }
      recognizers := .linked diamondMachine
      entryValues := [(2, .returnAddr 32)] }
  isa := retryIsa
  image := .ofCode .little 0x1000 [1, 2, 3, 4, 0, 0, 4]
  limits := { maxBlocks }
  known := []

/-- An answer is a function if what can be seen of it is. -/
theorem exists_of_view {n : Nat} {view : Bool × List Word × List (List Word)}
    (h : ((function (retryTask n) 0x1000).1.toOption.map fun f =>
      (f.truncated, f.newFunctions, f.blocks.map FlowBlock.successors)) = some view) :
    ∃ f tally, function (retryTask n) 0x1000 = (.ok f, tally) ∧ f.truncated = view.1 ∧
      f.newFunctions = view.2.1 ∧ f.blocks.map FlowBlock.successors = view.2.2 := by
  generalize function (retryTask n) 0x1000 = answer at h
  obtain ⟨result, tally⟩ := answer
  cases result with
  | error e => cases h
  | ok f =>
    cases h
    exact ⟨f, tally, rfl, rfl, rfl, rfl⟩

/-- The way back leads into the middle of the first block, and a block of
its own is found there. With room for two blocks only, it is not. -/
theorem function_closed_retry :
    (∃ f tally, function (retryTask 8) 0x1000 = (.ok f, tally) ∧ f.truncated = false ∧
      f.newFunctions = [0x1006] ∧ f.blocks.map FlowBlock.successors =
        [[0x1002], [0x1001, 0x1003], [0x1002], []] ∧
      ∃ visits p, Makes (retryTask 8) (atEntry (retryTask 8) 0x1000) visits p ∧
        f.blocks = visits.flatMap Visit.blocks ∧
        (∃ b ∈ f.blocks,
          b.flow.callee? (retryTask 8).target.machine (retryTask 8).image = some 0x1006) ∧
        ∀ a ∈ [0x1001, 0x1002, 0x1003], (retryTask 8).image.isExecutable a = true ∧
          ∃ w ∈ visits, w.HeadsAt (retryTask 8) a) ∧
    ∃ f tally, function (retryTask 2) 0x1000 = (.ok f, tally) ∧ f.truncated = true ∧
      2 ≤ f.blocks.length := by
  have hkeeps (n : Nat) : (retryTask n).target.KeepsFlow := fun _ => ⟨rfl, rfl⟩
  have hrules (n : Nat) : ∀ r ∈ (retryTask n).target.chain.rules,
      r ∈ Rule.conditionalReturn :: Rule.standard := fun _ => List.mem_cons_of_mem _
  constructor
  · have hview : ((function (retryTask 8) 0x1000).1.toOption.map fun f =>
        (f.truncated, f.newFunctions, f.blocks.map FlowBlock.successors)) =
          some (false, [0x1006], [[0x1002], [0x1001, 0x1003], [0x1002], []]) := by decide +kernel
    obtain ⟨f, tally, hf, hfull, hcalls, hsuccessors⟩ := exists_of_view hview
    obtain ⟨visits, p, hmakes, hblocks, -, hexec, -, -, -, hcallees, hheads, -⟩ :=
      function_closed (hrules 8) rfl (hkeeps 8) hf
    refine ⟨f, tally, hf, hfull, hcalls, hsuccessors, visits, p, hmakes, hblocks, ?_, ?_⟩
    · refine ((hcallees (fun _ => rfl) 0x1006).1 ?_).2
      rw [hcalls]
      exact List.mem_singleton_self _
    -- The blocks are known by their successors, so each address is found in one of
    -- them.
    intro a ha
    have hsome : ∀ a ∈ [0x1001, 0x1002, 0x1003],
        a ∈ (f.blocks.map FlowBlock.successors).flatten := by
      rw [hsuccessors]
      simp
    obtain ⟨successors, hmem, ha⟩ := List.mem_flatten.1 (hsome a ha)
    obtain ⟨b, hb, rfl⟩ := List.mem_map.1 hmem
    exact ⟨hexec b hb a ha, hheads hfull b hb a ha⟩
  · have hview : ((function (retryTask 2) 0x1000).1.toOption.map fun f =>
        (f.truncated, f.newFunctions, f.blocks.map FlowBlock.successors)) =
          some (true, [0x1006], [[0x1002], [0x1001, 0x1003]]) := by decide +kernel
    obtain ⟨f, tally, hf, hcut, -, -⟩ := exists_of_view hview
    obtain ⟨visits, p, -, -, -, -, -, -, -, -, -, hlimit⟩ :=
      function_closed (hrules 2) rfl (hkeeps 2) hf
    exact ⟨f, tally, hf, hcut, hlimit hcut⟩

/-- A function that only jumps to another one, which is known. -/
def handoverTask : Task :=
  { retryTask 8 with
    isa :=
      { Instr := UInt8
        decode := fun bytes _ => bytes.head?.map (·, 1)
        recipe := fun _ _ _ => .step (.setIp 0x1006) .done }
    known := [0x1006] }

/-- The same for a target whose last change adds a function that is not
there. -/
def addingTask : Task :=
  { handoverTask with
    target := { handoverTask.target with
      amend := some fun b => { b with newFunctions := 0x9000 :: b.newFunctions } } }

/-- A target may keep flows and successors and yet list a function outside
executable memory. And a function that is entered by a tail call is not
listed, although it is known. -/
theorem function_lists_no_callee :
    (addingTask.target.KeepsFlow ∧
      (∀ r ∈ addingTask.target.chain.rules, r ∈ Rule.conditionalReturn :: Rule.standard) ∧
      ∃ f tally, function addingTask 0x1000 = (.ok f, tally) ∧ 0x9000 ∈ f.newFunctions ∧
        addingTask.image.isExecutable 0x9000 = false) ∧
    ∃ f tally, function handoverTask 0x1000 = (.ok f, tally) ∧ f.newFunctions = [] ∧
      (f.blocks.map fun b =>
        (b.flow.kind, b.flow.regs?.bind (·.get? handoverTask.target.machine.ip))) =
        [(.tailCall, some (.bv 32 0x1006))] := by
  constructor
  · refine ⟨fun _ => ⟨rfl, rfl⟩, fun _ => List.mem_cons_of_mem _, ?_⟩
    have hview : ((function addingTask 0x1000).1.toOption.map Function.newFunctions) =
        some [0x9000] := by decide +kernel
    generalize function addingTask 0x1000 = answer at hview ⊢
    obtain ⟨result, tally⟩ := answer
    cases result with
    | error e => cases hview
    | ok f =>
      refine ⟨f, tally, rfl, ?_, by decide⟩
      rw [show f.newFunctions = [0x9000] from Option.some.inj hview]
      exact List.mem_singleton_self _
  · have hview : ((function handoverTask 0x1000).1.toOption.map fun f =>
        (f.newFunctions, f.blocks.map fun b =>
          (b.flow.kind, b.flow.regs?.bind (·.get? handoverTask.target.machine.ip)))) =
        some ([], [(.tailCall, some (.bv 32 0x1006))]) := by decide +kernel
    generalize function handoverTask 0x1000 = answer at hview ⊢
    obtain ⟨result, tally⟩ := answer
    cases result with
    | error e => cases hview
    | ok f =>
      obtain ⟨hfunctions, hblocks⟩ := Prod.mk.inj (Option.some.inj hview)
      exact ⟨f, tally, rfl, hfunctions, hblocks⟩

end Explore

end FlowRecovery
