import FlowRecovery.Proofs.Runs
import Mathlib.Data.List.Nodup

/-!
# `FlowRecovery.Proofs.Coverage`: which ways into an address are followed

An address can be reached in several ways, with different registers. The
exploration follows one of them, and this file says which: the first in
the order of discovery. What the run from there finds is recorded, so a
later way into the address is covered if it brings the same registers
(`function_covers_first`).

Other registers need not be covered. What is known of them decides how
branches fold, and `function_covers_first_diamond` is a function with
code that can be reached and is not discovered.
-/

set_option autoImplicit false

namespace FlowRecovery

/-- What a block leads to. -/
inductive Lead where
  | successor (addr : Word)
  | function (entry : Word)
deriving DecidableEq, Repr

/-- The leads of a block, successors first. -/
def FlowBlock.leads (b : FlowBlock) : List Lead :=
  b.successors.map .successor ++ b.newFunctions.map .function

namespace Explore

/-- What a run from `addr` would lead to, whether or not it is made. -/
def leadsFrom (task : Task) (p : Progress) (addr : Word) (regs : RegFile) : List Lead :=
  ((findings task p addr regs).getD []).flatMap FlowBlock.leads

/-- The ways out of the blocks of a run, with the registers there. -/
def Visit.edges (task : Task) (v : Visit) : List (Word × RegFile) :=
  v.blocks.flatMap (newWork task v.after.defs [])

/-- All ways into addresses of the function, in the order of discovery. -/
def arrivals (task : Task) (entry : Word) : List (Word × RegFile) :=
  (entry, task.target.entryState entry) :: (runs task entry).flatMap (Visit.edges task)

/-! ### The queue -/

/-- Leaving out other keys does not change what is found under a key. -/
theorem lookup_filter_fst {β : Type} (keep : Word → Bool) {a : Word} (ha : keep a = true)
    (entries : List (Word × β)) :
    (entries.filter fun e => keep e.1).lookup a = entries.lookup a := by
  induction entries with
  | nil => rfl
  | cons e rest ih =>
    obtain ⟨key, value⟩ := e
    rw [List.filter_cons]
    by_cases heq : a = key
    · rw [if_pos (heq ▸ ha), heq, List.lookup_cons_self, List.lookup_cons_self]
    · have hne : (a == key) = false := beq_false_of_ne heq
      split
      · rw [List.lookup_cons, List.lookup_cons, hne, ih]
      · rw [List.lookup_cons, hne, ih]

/-- Visited addresses are left out of the new work, and nothing else. -/
theorem newWork_eq_filter (task : Task) (defs : Definitions) (visited : List Word)
    (b : FlowBlock) :
    newWork task defs visited b =
      (newWork task defs [] b).filter fun work => !visited.contains work.1 := by
  unfold newWork
  induction b.successors with
  | nil => rfl
  | cons succ rest ih =>
    -- Both sides leave a visited address out, and take any other one with its
    -- registers.
    by_cases hvisited : visited.contains succ = true
    · cases hstate : edgeState? task defs b succ <;> simp_all
    · cases hstate : edgeState? task defs b succ <;> simp_all

/-- Every successor whose registers are known is new work, as long as
nothing has been visited. -/
theorem mem_newWork_nil {task : Task} {defs : Definitions} {b : FlowBlock} {a : Word}
    {s : RegFile} (ha : a ∈ b.successors) (hs : edgeState? task defs b a = some s) :
    (a, s) ∈ newWork task defs [] b := by
  refine List.mem_filterMap.2 ⟨a, ha, ?_⟩
  simp [hs]

/-- The address that comes next has not been visited, and no way to it
stands before the one that is taken. The ways to other unvisited
addresses stay as they are. -/
theorem lookup_of_nextUnvisited? {visited : List Word} {queue rest : List (Word × RegFile)}
    {addr : Word} {regs : RegFile}
    (h : nextUnvisited? visited queue = some ((addr, regs), rest)) :
    addr ∉ visited ∧ queue.lookup addr = some regs ∧
      ∀ a, a ∉ visited → a ≠ addr → rest.lookup a = queue.lookup a := by
  induction queue with
  | nil => cases h
  | cons work queue ih =>
    obtain ⟨next, nextRegs⟩ := work
    rw [nextUnvisited?] at h
    -- A visited address is skipped; the first other one is taken.
    by_cases hvisited : next ∈ visited
    · -- A visited address holds no first way, so leaving it out changes nothing.
      rw [if_pos (List.contains_iff_mem.2 hvisited)] at h
      obtain ⟨hnew, hlookup, hothers⟩ := ih h
      have hskip : ∀ a, a ∉ visited →
          List.lookup a ((next, nextRegs) :: queue) = queue.lookup a := by
        intro a ha
        have hne : (a == next) = false :=
          beq_false_of_ne fun heq => ha (heq ▸ hvisited)
        rw [List.lookup_cons, hne]
      refine ⟨hnew, ?_, ?_⟩
      · rw [hskip addr hnew]
        exact hlookup
      · intro a ha hne
        rw [hskip a ha]
        exact hothers a ha hne
    · rw [if_neg fun hcontains => hvisited (List.contains_iff_mem.1 hcontains)] at h
      cases h
      refine ⟨hvisited, List.lookup_cons_self, ?_⟩
      intro a _ hne
      rw [List.lookup_cons, beq_false_of_ne hne]

/-! ### First come, first served -/

/-- The queue holds what matters of the ways found so far: for an address
that has not been visited, the first of them comes first in the queue. -/
def Awaits (p : Progress) (found : List (Word × RegFile)) : Prop :=
  ∀ a, a ∉ p.visited → p.worklist.lookup a = found.lookup a

/-- One run: where it starts, and what it leaves behind. -/
theorem Visit.step {task : Task} {p : Progress} {v : Visit} (h : nextVisit? task p = some v) :
    findings task v.before v.addr v.regs = some v.blocks ∧
      v.after.blocks = p.blocks ++ v.blocks ∧
      v.addr ∉ p.visited ∧ v.after.visited = v.addr :: p.visited ∧
      p.worklist.lookup v.addr = some v.regs ∧
      ∀ found, Awaits p found → Awaits v.after (found ++ v.edges task) := by
  obtain ⟨rest, hnext, hbefore, hvisit⟩ := nextVisit?_eq_some_iff.1 h
  obtain ⟨hnew, hfirst, hothers⟩ := lookup_of_nextUnvisited? hnext
  obtain ⟨found, hfound, hblocks, hvisited, -, hworklist⟩ := findings_of_visit hvisit
  have hv : v.blocks = found := by
    rw [Visit.blocks, hblocks, List.drop_left]
  rw [hbefore] at hblocks hvisited hworklist
  refine ⟨hv ▸ hfound, hv ▸ hblocks, hnew, hvisited, hfirst, ?_⟩
  intro earlier hawaits a ha
  rw [hvisited] at ha
  obtain ⟨hne, hunvisited⟩ : a ≠ v.addr ∧ a ∉ p.visited := by
    refine ⟨fun heq => ha (heq ▸ List.mem_cons_self), fun hmem => ha (List.mem_cons_of_mem _ hmem)⟩
  -- The new work for `a` is all new ways to `a`, since `a` is unvisited.
  have hwork : (found.flatMap (newWork task v.after.defs (v.addr :: p.visited))).lookup a =
      (v.edges task).lookup a := by
    have hkeep : (!(v.addr :: p.visited).contains a) = true := by simp [hne, hunvisited]
    have hfilter : found.flatMap (newWork task v.after.defs (v.addr :: p.visited)) =
        (v.edges task).filter fun work => !(v.addr :: p.visited).contains work.1 := by
      rw [Visit.edges, hv, List.filter_flatMap]
      exact congrArg found.flatMap (funext (newWork_eq_filter task v.after.defs _))
    rw [hfilter]
    exact lookup_filter_fst (fun a => !(v.addr :: p.visited).contains a) hkeep _
  rw [hworklist, List.lookup_append, List.lookup_append, ← hawaits a hunvisited,
    ← hothers a hunvisited hne]
  exact congrArg _ hwork

namespace Makes

variable {task : Task} {p q : Progress} {visits : List Visit}

/-- What is recorded is what the runs record, one after the other. -/
theorem blocks_eq (h : Makes task p visits q) :
    q.blocks = p.blocks ++ visits.flatMap Visit.blocks := by
  induction h with
  | nil => simp
  | cons _ hv _ ih =>
    obtain ⟨-, hblocks, -⟩ := Visit.step hv
    rw [ih, hblocks, List.flatMap_cons, List.append_assoc]

/-- What is visited is where the runs start. -/
theorem visited_eq (h : Makes task p visits q) :
    q.visited = (visits.map Visit.addr).reverse ++ p.visited := by
  induction h with
  | nil => rfl
  | cons _ hv _ ih =>
    obtain ⟨-, -, -, hvisited, -⟩ := Visit.step hv
    rw [ih, hvisited, List.map_cons, List.reverse_cons, List.append_assoc, List.singleton_append]

/-- No address is visited twice. -/
theorem nodup_visited (h : Makes task p visits q) (hp : p.visited.Nodup) : q.visited.Nodup := by
  refine h.preserves (I := fun p => p.visited.Nodup) (fun p v hv hp => ?_) hp
  obtain ⟨-, -, hnew, hvisited, -⟩ := Visit.step hv
  rw [hvisited]
  exact List.nodup_cons.2 ⟨hnew, hp⟩

/-- So no two runs from the entry start at the same address. -/
theorem nodup_addr {entry : Word} (h : Makes task (atEntry task entry) visits q) :
    (visits.map Visit.addr).Nodup := by
  have hnodup := h.nodup_visited List.nodup_nil
  rw [h.visited_eq, List.nodup_append, List.nodup_reverse] at hnodup
  exact hnodup.1

/-- Every run records what it finds. -/
theorem findings_eq (h : Makes task p visits q) {v : Visit} (hv : v ∈ visits) :
    findings task v.before v.addr v.regs = some v.blocks := by
  obtain ⟨-, -, p', -, -, hnext, -⟩ := h.split hv
  exact (Visit.step hnext).1

/-- The queue always holds what matters of the ways found so far. -/
theorem awaits (h : Makes task p visits q) {found : List (Word × RegFile)}
    (hp : Awaits p found) : Awaits q (found ++ visits.flatMap (Visit.edges task)) := by
  induction h generalizing found with
  | nil =>
    rw [List.flatMap_nil, List.append_nil]
    exact hp
  | cons _ hv _ ih =>
    obtain ⟨-, -, -, -, -, hqueue⟩ := Visit.step hv
    rw [List.flatMap_cons, ← List.append_assoc]
    exact ih (hqueue found hp)

/-- Every run starts from the first way into its address. -/
theorem lookup_eq (h : Makes task p visits q) {found : List (Word × RegFile)}
    (hp : Awaits p found) {v : Visit} (hv : v ∈ visits) :
    (found ++ visits.flatMap (Visit.edges task)).lookup v.addr = some v.regs := by
  obtain ⟨earlier, later, p', rfl, hearlier, hnext, -⟩ := h.split hv
  obtain ⟨-, -, hnew, -, hfirst, -⟩ := Visit.step hnext
  -- It is taken from the queue, where the first way found stands first.
  rw [hearlier.awaits hp v.addr hnew] at hfirst
  rw [List.flatMap_append, ← List.append_assoc, List.lookup_append, hfirst]
  rfl

/-- Once nothing is left to do, every address that there is a way into has
been visited. -/
theorem mem_visited (h : Makes task p visits q)
    (hend : nextUnvisited? q.visited q.worklist = none) {found : List (Word × RegFile)}
    (hp : Awaits p found) {a : Word} {s : RegFile}
    (hway : (a, s) ∈ found ++ visits.flatMap (Visit.edges task)) : a ∈ q.visited := by
  by_contra ha
  -- An unvisited address would still be in the queue.
  have hnone : q.worklist.lookup a = none := by
    refine List.lookup_eq_none_iff.2 fun work hwork => ?_
    have hvisited := nextUnvisited?_eq_none_iff.1 hend work hwork
    exact bne_iff_ne.2 fun heq => ha (heq ▸ hvisited)
  rw [h.awaits hp a ha] at hnone
  have hne := List.lookup_eq_none_iff.1 hnone (a, s) hway
  simp at hne

end Makes

/-- Exploration covers the first way into every address.

The blocks of a function are those of its runs, and no two runs start at
the same address. Take any way from a block of the function to a
successor `a`, with the registers `s` there. There is a run from `a`; it
starts with the registers of the first way into `a` in the order of
discovery, and records all that it finds. So if `s` are these registers,
all that the way leads to is recorded. Nothing is said of other
registers. -/
theorem function_covers_first {task : Task} {entry : Word} {f : Function} {tally : Tally}
    (h : function task entry = (.ok f, tally)) (hfull : f.truncated = false) :
    f.blocks = (runs task entry).flatMap Visit.blocks ∧
      ((runs task entry).map Visit.addr).Nodup ∧
      ∀ v ∈ runs task entry, ∀ b ∈ v.blocks, ∀ a ∈ b.successors, ∀ s,
        edgeState? task v.after.defs b a = some s →
        ∃ w ∈ runs task entry, w.addr = a ∧ (arrivals task entry).lookup a = some w.regs ∧
          findings task w.before a w.regs = some w.blocks ∧
          (s = w.regs → leadsFrom task w.before a s = w.blocks.flatMap FlowBlock.leads) := by
  obtain ⟨visits, p, hmakes, hblocks, -, hend⟩ := exists_makes_of_function h
  have hnext : nextUnvisited? p.visited p.worklist = none := by
    rcases hend with ⟨-, hnext⟩ | ⟨hcut, -⟩
    · exact hnext
    · rw [hcut] at hfull
      cases hfull
  obtain rfl := hmakes.eq_runs hnext
  -- The way to the entry is the first one found.
  have hawaits : Awaits (atEntry task entry) [(entry, task.target.entryState entry)] :=
    fun _ _ => rfl
  refine ⟨hblocks.trans hmakes.blocks_eq, hmakes.nodup_addr, ?_⟩
  intro v hv b hb a ha s hs
  have hway : (a, s) ∈ [(entry, task.target.entryState entry)] ++
      (runs task entry).flatMap (Visit.edges task) :=
    List.mem_append_right _ (List.mem_flatMap.2
      ⟨v, hv, List.mem_flatMap.2 ⟨b, hb, mem_newWork_nil ha hs⟩⟩)
  have hvisited := hmakes.mem_visited hnext hawaits hway
  rw [hmakes.visited_eq, show (atEntry task entry).visited = [] from rfl, List.append_nil,
    List.mem_reverse] at hvisited
  obtain ⟨w, hw, rfl⟩ := List.mem_map.1 hvisited
  have hfound := hmakes.findings_eq hw
  refine ⟨w, hw, rfl, hmakes.lookup_eq hawaits hw, hfound, fun hsame => ?_⟩
  rw [hsame, leadsFrom, hfound]
  rfl

/-- A machine with a register and a flag. -/
def diamondMachine : Machine where
  name := "diamond"
  addrWidth := 32
  order := .little
  registers := [.word32 "pc", .word32 "sp", .word32 "lr", .word32 "r", .flag "z"]
  ip := 0
  sp := 1
  link := some 2

/-- Five instructions of one byte each. The first one branches on the
flag, the next two leave different values in the register and go to the
same place, the fourth branches on the register, and the last returns. -/
def diamondIsa : InstructionSet where
  Instr := UInt8
  decode bytes _ := bytes.head?.map (·, 1)
  recipe instr _ _ :=
    match instr with
    | 1 => .step (.set 0 (.select (.leaf (.reg 4)) (.leaf (.value (.bv 32 0x1001)))
        (.leaf (.value (.bv 32 0x1002))))) .done
    | 2 => .step (.set 3 (.leaf (.value (.bv 32 1)))) (.step (.setIp 0x1004) .done)
    | 3 => .step (.set 3 (.leaf (.value (.bv 32 2)))) (.step (.setIp 0x1004) .done)
    | 4 => .step (.set 0 (.select
        (.binary .eq (.leaf (.reg 3)) (.leaf (.value (.bv 32 1))))
        (.leaf (.value (.bv 32 0x1006))) (.leaf (.value (.bv 32 0x1007))))) .done
    | 5 => .step (.set 0 (.leaf (.reg 2))) .done
    | _ => .step (.fail "unknown") .done

/-- The two ways meet at `0x1004`, with different values in the register.
-/
def diamondTask : Task where
  target :=
    { machine := diamondMachine
      recognizers := .linked diamondMachine
      entryValues := [(2, .returnAddr 32)] }
  isa := diamondIsa
  image := .ofCode .little 0x1000 [1, 2, 3, 0, 4, 0, 5, 5]
  known := []

/-- The registers on the second way into the fourth instruction. -/
def diamondSecond : RegFile :=
  ⟨[.bv 32 0x1004, .initial 1 (.bv 32), .returnAddr 32, .bv 32 2, .initial 4 .bool]⟩

/-- The two ways into the fourth instruction lead to different places,
and only the first of them is discovered. -/
theorem function_covers_first_diamond :
    ∃ f tally, function diamondTask 0x1000 = (.ok f, tally) ∧ f.truncated = false ∧
      f.blocks = (runs diamondTask 0x1000).flatMap Visit.blocks ∧
      ∃ v ∈ runs diamondTask 0x1000, ∃ b ∈ v.blocks, 0x1004 ∈ b.successors ∧
        edgeState? diamondTask v.after.defs b 0x1004 = some diamondSecond ∧
        ∃ w ∈ runs diamondTask 0x1000, w.addr = 0x1004 ∧
          ¬ leadsFrom diamondTask w.before 0x1004 diamondSecond ⊆
            w.blocks.flatMap FlowBlock.leads := by
  obtain ⟨f, tally, hf, hfull⟩ : ∃ f tally, function diamondTask 0x1000 = (.ok f, tally) ∧
      f.truncated = false := by
    have hok : ((function diamondTask 0x1000).1.toOption.map Function.truncated) = some false := by
      decide +kernel
    generalize function diamondTask 0x1000 = answer at hok
    obtain ⟨result, tally⟩ := answer
    cases result with
    | error e => cases hok
    | ok f => exact ⟨f, tally, rfl, Option.some.inj hok⟩
  have hsecond : ([0x1004], some diamondSecond) ∈ (runs diamondTask 0x1000).flatMap fun v =>
      v.blocks.map fun b => (b.successors, edgeState? diamondTask v.after.defs b 0x1004) := by
    decide +kernel
  obtain ⟨v, hv, hmap⟩ := List.mem_flatMap.1 hsecond
  obtain ⟨b, hb, hway⟩ := List.mem_map.1 hmap
  obtain ⟨hsuccessors, hs⟩ := Prod.mk.injEq _ _ _ _ ▸ hway
  have ha : 0x1004 ∈ b.successors := hsuccessors ▸ List.mem_singleton_self _
  have hleads : (((runs diamondTask 0x1000).filter fun w => w.addr = 0x1004).map fun w =>
      (leadsFrom diamondTask w.before 0x1004 diamondSecond,
        leadsFrom diamondTask w.before 0x1004 w.regs)) =
      [([.successor 0x1007], [.successor 0x1006])] := by decide +kernel
  obtain ⟨hblocks, -, hways⟩ := function_covers_first hf hfull
  obtain ⟨w, hw, haddr, -, hfound, -⟩ := hways v hv b hb 0x1004 ha diamondSecond hs
  refine ⟨f, tally, hf, hfull, hblocks, v, hv, b, hb, ha, hs, w, hw, haddr, ?_⟩
  have hmem : w ∈ (runs diamondTask 0x1000).filter fun w => w.addr = 0x1004 :=
    List.mem_filter.2 ⟨hw, decide_eq_true haddr⟩
  have hpair : (leadsFrom diamondTask w.before 0x1004 diamondSecond,
      leadsFrom diamondTask w.before 0x1004 w.regs) ∈
        [([Lead.successor 0x1007], [Lead.successor 0x1006])] := by
    rw [← hleads]
    exact List.mem_map_of_mem hmem
  rw [List.mem_singleton, Prod.mk.injEq] at hpair
  -- What is recorded is what the first registers lead to.
  have hrecorded : leadsFrom diamondTask w.before 0x1004 w.regs =
      w.blocks.flatMap FlowBlock.leads := by
    rw [leadsFrom, hfound]
    rfl
  rw [← hrecorded, hpair.1, hpair.2]
  decide

end Explore

end FlowRecovery
