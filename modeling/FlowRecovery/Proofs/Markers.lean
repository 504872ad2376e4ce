import FlowRecovery.Proofs.Balance
import FlowRecovery.Proofs.Head

/-!
# `FlowRecovery.Proofs.Markers`: decoding and the instruction pointer

While it passes through instructions, disassembly keeps the address of the
next one beside the block under construction. The register of the
instruction pointer says the same, but in the width of the machine's
addresses: whenever an instruction is about to be decoded at `pc`, the
register holds the low bits of `pc` (`Passes.ip`). So it holds `pc` itself
exactly as long as `pc` is an address of that width.

The address counts in 64 bits. On a machine with narrower addresses an
instruction at the very end of the address space is followed by one that
does not exist, not by the one at address zero, where the register has
gone on. Where no instruction reaches the end, the address stays in range
(`Passes.lt_of_room`); with addresses of 64 bits there is nothing to reach.

The markers of the first block lie one behind the other, from the start
of the run on (`Consecutive`). The invariant is `Marked`: the first block
marks some of the instructions that were passed through, and all of them
as long as it is the open one. An instruction adds its own marker and, if
its recipe brings none along, no other.
-/

set_option autoImplicit false

namespace FlowRecovery

/-- The instructions that the block marks. -/
def Block.marks (blk : Block) : List (Word × Nat) :=
  blk.stmts.filterMap Stmt.mark?

@[inherit_doc Block.marks]
def BlockView.marks : BlockView (List (Word × Nat)) where
  see _ stmts := stmts.filterMap Stmt.mark?
  unmarked _ _ s h := by simp [List.filterMap_append, h]

/-- Before anything is finished, what is seen of the open block is seen of
the first. -/
theorem Builder.headed_of_open {β : Type} {v : BlockView β} {b : Builder} {blk : OpenBlock}
    (hnil : b.ledger.finished = []) (hblk : b.current = some blk) :
    b.Headed v (v.see blk.addr blk.stmts) := by
  rw [Builder.Headed, Builder.views, hnil, hblk]
  rfl

/-- The register holds the address itself exactly if the address is in
range. -/
theorem Machine.addr_eq_literal_iff (m : Machine) (pc : Word) :
    m.addr pc = .bv m.addrWidth pc ↔ pc.toNat < 2 ^ m.addrWidth := by
  rw [← Word.keepLow_eq_self_iff, Machine.addr, Value.ofWord, Value.bv.injEq]
  exact ⟨fun h => h.2, fun h => ⟨rfl, h⟩⟩

namespace Disassembly

variable {src : Source} {pc addr : Word} {b b' : Builder}

/-! ### Instructions in a row -/

/-- No instruction reaches the end of the address space. -/
def Source.HasRoom (src : Source) : Prop :=
  ∀ pc instr size, pc.toNat < 2 ^ src.machine.addrWidth → fetch src pc = .ok (instr, size) →
    (nextPc pc size).toNat < 2 ^ src.machine.addrWidth

/-- With addresses of 64 bits there is none that is out of range. -/
theorem Source.hasRoom_of_full (h : src.machine.addrWidth = 64) : src.HasRoom := by
  intro pc instr size _ _
  rw [h]
  exact (nextPc pc size).isLt

/-- The instructions, given by address and size, lie one behind the other,
from the first address up to the second. -/
inductive Consecutive (src : Source) : Word → List (Word × Nat) → Word → Prop
  | nil (pc : Word) : Consecutive src pc [] pc
  | cons {pc last : Word} {instr : src.isa.Instr} {size : Nat} {marks : List (Word × Nat)}
      (h : fetch src pc = .ok (instr, size)) (rest : Consecutive src (nextPc pc size) marks last) :
      Consecutive src pc ((pc, size) :: marks) last

/-- Behind an instruction the low bits of the address are what adding its
size in that width gives. -/
theorem toNat_keepLow_nextPc {width : Nat} (hwidth : width ≤ 64) (pc : Word) (size : Nat) :
    ((nextPc pc size).keepLow width).toNat = (pc.toNat + size) % 2 ^ width := by
  have hdvd : 2 ^ width ∣ 2 ^ 64 := Nat.pow_dvd_pow 2 hwidth
  rw [Word.toNat_keepLow, nextPc, BitVec.toNat_add, BitVec.toNat_ofNat,
    Nat.mod_mod_of_dvd _ hdvd, Nat.add_mod, Nat.mod_mod_of_dvd _ hdvd, ← Nat.add_mod]

namespace Consecutive

variable {marks : List (Word × Nat)} {last : Word}

/-- One instruction more, at the end. -/
theorem concat (h : Consecutive src addr marks pc) {instr : src.isa.Instr} {size : Nat}
    (hpc : fetch src pc = .ok (instr, size)) :
    Consecutive src addr (marks ++ [(pc, size)]) (nextPc pc size) := by
  induction h with
  | nil pc => exact .cons hpc (.nil _)
  | cons hfirst _ ih => exact .cons hfirst (ih hpc)

/-- What is marked has been decoded, so it can be executed. -/
theorem isExecutable (h : Consecutive src addr marks last) :
    ∀ mark ∈ marks, src.image.isExecutable mark.1 = true := by
  induction h with
  | nil => exact fun _ h => absurd h List.not_mem_nil
  | cons hfirst _ ih => exact List.forall_mem_cons.2 ⟨(fetch_eq_ok_iff.1 hfirst).1, ih⟩

/-- From an address in range the markers stay in range, if no instruction
reaches the end. -/
theorem lt_of_room (h : Consecutive src addr marks last) (hroom : src.HasRoom)
    (haddr : addr.toNat < 2 ^ src.machine.addrWidth) :
    ∀ mark ∈ marks, mark.1.toNat < 2 ^ src.machine.addrWidth := by
  induction h with
  | nil => exact fun _ h => absurd h List.not_mem_nil
  | cons hfirst _ ih =>
    exact List.forall_mem_cons.2 ⟨haddr, ih (hroom _ _ _ haddr hfirst)⟩

/-- Within the width of the addresses each marker is the one before it plus
its size. -/
theorem isChain (h : Consecutive src addr marks last) {width : Nat} (hwidth : width ≤ 64) :
    marks.IsChain fun mark next =>
      (next.1.keepLow width).toNat = (mark.1.toNat + mark.2) % 2 ^ width := by
  induction h with
  | nil => exact .nil
  | cons _ rest ih =>
    cases rest with
    | nil => exact .singleton _
    | cons => exact .cons_cons (toNat_keepLow_nextPc hwidth _ _) ih

end Consecutive

/-! ### The instruction pointer -/

/-- A block is open, and its instruction pointer is where the next
instruction is to be decoded. -/
def AtIp (src : Source) (pc : Word) (b : Builder) : Prop :=
  ∃ blk, b.current = some blk ∧ blk.regs.get? src.machine.ip = some (src.machine.addr pc)

/-- An instruction that falls through leaves the instruction pointer where
it goes on. -/
theorem fallsThrough_ip {next : Word} (h : decodeOne src pc b = (.ok (.fallsThrough next), b')) :
    AtIp src next b' := by
  obtain ⟨_, blk, -, -, hblk, hip⟩ := decodeOne_eq_fallsThrough_iff.1 h
  exact ⟨blk, hblk, hip⟩

/-- So does any number of them. Only a run through no instruction rests on
where it starts. -/
theorem Passes.ip {n : Nat} (h : Passes src n addr b pc b') (hb : AtIp src addr b) :
    AtIp src pc b' := by
  induction h with
  | nil => exact hb
  | cons hfirst _ ih => exact ih (fallsThrough_ip hfirst)

/-- An instruction that control passes through has been decoded, and
control goes on behind it. -/
theorem exists_fetch_of_fallsThrough {next : Word}
    (h : decodeOne src pc b = (.ok (.fallsThrough next), b')) :
    ∃ instr size, fetch src pc = .ok (instr, size) ∧ next = nextPc pc size := by
  obtain ⟨size, _, hstep, hnext, -, -⟩ := decodeOne_eq_fallsThrough_iff.1 h
  obtain ⟨instr, _, _, hfetch, -, -, -⟩ := step_eq_ok_iff.1 hstep
  exact ⟨instr, size, hfetch, hnext⟩

/-- The address where decoding has got to is in range. -/
theorem Passes.lt_of_room {n : Nat} (h : Passes src n addr b pc b') (hroom : src.HasRoom)
    (haddr : addr.toNat < 2 ^ src.machine.addrWidth) : pc.toNat < 2 ^ src.machine.addrWidth := by
  induction h with
  | nil => exact haddr
  | cons hfirst _ ih =>
    obtain ⟨instr, size, hfetch, rfl⟩ := exists_fetch_of_fallsThrough hfirst
    exact ih (hroom _ instr size haddr hfetch)

/-! ### The first block -/

/-- After `n` instructions, with the next one at `pc`: the first block marks
consecutive instructions, at most `n` of them and not none of several. As
long as it is the open one, they end at `pc`. -/
def Marked (src : Source) (addr : Word) (n : Nat) (pc : Word) (b : Builder) : Prop :=
  ∃ marks last, b.Headed .marks marks ∧ Consecutive src addr marks last ∧ marks.length ≤ n ∧
    (marks = [] → n = 0 ∧ b.ledger.finished = []) ∧ (b.ledger.finished = [] → last = pc)

/-- At first nothing is marked. -/
theorem marked_start {d : Discovery} (hd : d.ledger.finished = []) (src : Source) (addr : Word)
    (regs : RegFile) : Marked src addr 0 addr (.start d addr regs) :=
  ⟨[], addr, Builder.headed_start hd .marks addr regs, .nil addr, Nat.le_refl 0,
    fun _ => ⟨rfl, hd⟩, fun _ => rfl⟩

/-- The marker of the next instruction continues the first block, or goes
to a later one. -/
theorem Marked.mark {n : Nat} (h : Marked src addr n pc b) {instr : src.isa.Instr} {size : Nat}
    (hpc : fetch src pc = .ok (instr, size)) :
    ∃ marks last, (b.mark pc size).Headed .marks marks ∧ Consecutive src addr marks last ∧
      marks.length ≤ n + 1 ∧ marks ≠ [] ∧ (b.ledger.finished = [] → last = nextPc pc size) := by
  obtain ⟨marks, last, hheaded, hconsecutive, hlength, hempty, hlast⟩ := h
  by_cases hnil : b.ledger.finished = []
  · -- The first block is the open one, and it ends where the marker goes.
    obtain rfl := hlast hnil
    obtain ⟨blk, hblk, hmarks⟩ := Option.map_eq_some_iff.1 (hheaded.of_finished_nil hnil)
    have hmarked : (b.mark last size).Headed .marks (marks ++ [(last, size)]) := by
      have hsee := Builder.headed_of_open (v := .marks) (b := b.mark last size) hnil
        (Builder.current_mark hblk last size)
      rw [← hmarks]
      simpa [BlockView.marks, Stmt.mark?] using hsee
    exact ⟨_, _, hmarked, hconsecutive.concat hpc, by simpa using hlength, by simp,
      fun _ => rfl⟩
  · -- It is finished, so whatever the open block gets is not seen of it.
    exact ⟨marks, last, hheaded.of_finished (Or.inr hnil) rfl, hconsecutive,
      Nat.le_succ_of_le hlength, fun hmarks => hnil (hempty hmarks).2, fun h => absurd h hnil⟩

/-- What was finished before an instruction is finished after it. -/
theorem finished_of_fallsThrough {next : Word}
    (h : decodeOne src pc b = (.ok (.fallsThrough next), b')) (hnil : b'.ledger.finished = []) :
    b.ledger.finished = [] := by
  obtain ⟨size, _, hstep, -, -, -⟩ := decodeOne_eq_fallsThrough_iff.1 h
  have hsince := step_since src pc { b with instrAddr := pc }
  rw [hstep] at hsince
  obtain ⟨more, hmore, -⟩ := hsince.ledger
  rw [hnil] at hmore
  exact (List.append_eq_nil_iff.1 hmore.symm).1

section

variable (hisa : src.isa.Emits fun s => s.mark? = none)

include hisa

/-- The recipes append nothing that changes the markers. -/
theorem emits_hides_marks : src.isa.Emits BlockView.marks.Hides :=
  hisa.imp fun _ hs => BlockView.marks.hides_of_unmarked hs

/-- An instruction that falls through adds its marker, to the first block
or to a later one. -/
theorem Marked.fallsThrough {n : Nat} {next : Word} (hb : Marked src addr n pc b)
    (h : decodeOne src pc b = (.ok (.fallsThrough next), b')) :
    Marked src addr (n + 1) next b' := by
  rcases decodeOne_headed (emits_hides_marks hisa) h with
    ⟨instr, size, hfetch, hkept, hafter⟩ | ⟨_, hafter, -⟩
  · obtain ⟨marks, last, hmarked, hconsecutive, hlength, hne, hlast⟩ :=
      hb.mark hfetch
    rcases hafter with hafter | ⟨hafter, -⟩
    · cases hafter
      exact ⟨marks, last, hkept marks hmarked, hconsecutive, hlength, fun h => absurd h hne,
        -- If nothing is finished after it, nothing was before.
        fun hnil => hlast (finished_of_fallsThrough h hnil)⟩
    · cases hafter
  · cases hafter

/-- Any number of them adds at most as many markers. Induction on the
instructions. -/
theorem Passes.marked {m n : Nat} {pc' : Word} (h : Passes src n pc b pc' b')
    (hb : Marked src addr m pc b) : Marked src addr (m + n) pc' b' := by
  induction h generalizing m with
  | nil => exact hb
  | @cons n _ _ _ _ _ _ hfirst _ ih =>
    have hlater := ih (hb.fallsThrough hisa hfirst)
    rwa [Nat.add_right_comm] at hlater

/-- With the last instruction the first block is complete. Only if that one
is the very first, and fails, is nothing marked. -/
theorem Marked.closed {n : Nat} {failure : Option BuildError} (hb : Marked src addr n pc b)
    (h : decodeOne src pc b = (.ok (.closed failure), b')) :
    b'.current = none ∧ ∃ marks last, b'.Headed .marks marks ∧
      Consecutive src addr marks last ∧ marks.length ≤ n + 1 ∧
      (marks = [] → failure ≠ none) := by
  rcases decodeOne_headed (emits_hides_marks hisa) h with
    ⟨instr, size, hfetch, hkept, hafter⟩ | ⟨e, hafter, hkept, hclosed⟩
  · obtain ⟨marks, last, hmarked, hconsecutive, hlength, hne, -⟩ :=
      hb.mark hfetch
    rcases hafter with hafter | ⟨-, hclosed⟩
    · cases hafter
    · exact ⟨hclosed, marks, last, hkept marks hmarked, hconsecutive, hlength,
        fun h => absurd h hne⟩
  · cases hafter
    obtain ⟨marks, last, hheaded, hconsecutive, hlength, -, -⟩ := hb
    exact ⟨hclosed, marks, last, hkept marks hheaded, hconsecutive, Nat.le_succ_of_le hlength,
      fun _ => Option.some_ne_none e⟩

/-- The first block of a run marks consecutive instructions, no more of
them than are allowed. -/
theorem run_marks {limit : Nat} {regs : RegFile} {s s' : Session} {out : Disassembly}
    (hs : s.discovery.ledger.finished = []) (h : run src limit addr regs s = (.ok out, s')) :
    ∃ first rest last, out.blocks = first :: rest ∧ Consecutive src addr first.marks last ∧
      first.marks.length ≤ max 1 limit ∧ (first.marks = [] → out.failure ≠ none) := by
  obtain ⟨failure, b, hdecode, rfl, -⟩ := run_eq_ok_iff.1 h
  obtain ⟨n, pc, b₁, hpasses, hend⟩ := decodeFrom_ends hdecode
  have hb₁ := hpasses.marked hisa (marked_start hs src addr regs)
  rw [Nat.zero_add] at hb₁
  have hdone : b.current = none ∧ ∃ marks last, b.Headed .marks marks ∧
      Consecutive src addr marks last ∧ marks.length ≤ max 1 limit ∧
      (marks = [] → failure ≠ none) := by
    rcases hend with ⟨hle, hlast⟩ | ⟨rfl, rfl, i, hclose⟩
    · -- The last instruction ends the block, and counts towards the limit.
      obtain ⟨hclosed, marks, last, hheaded, hconsecutive, hlength, hempty⟩ :=
        hb₁.closed hisa hlast
      exact ⟨hclosed, marks, last, hheaded, hconsecutive, by omega, hempty⟩
    · -- The limit is reached, and the block is closed behind the last one.
      obtain ⟨marks, last, hheaded, hconsecutive, hlength, hempty, -⟩ := hb₁
      obtain ⟨hheaded, hclosed⟩ := hheaded.close hclose
      exact ⟨hclosed, marks, last, hheaded, hconsecutive, by omega,
        fun h => absurd (hempty h).1 (Nat.succ_ne_zero _)⟩
  obtain ⟨hclosed, marks, last, hheaded, hconsecutive, hlength, hempty⟩ := hdone
  obtain ⟨first, rest, hblocks, hmarks⟩ := hheaded.exists_first hclosed
  -- What is seen of the first block are its markers.
  have hmarks : first.marks = marks := hmarks
  rw [← hmarks] at hconsecutive hlength hempty
  exact ⟨first, rest, last, hblocks, hconsecutive, hlength, hempty⟩

end

/-! ### The last block -/

/-- A run that fails ends with a block whose instruction pointer is where
decoding failed. -/
theorem run_failed {limit : Nat} {regs : RegFile} {s s' : Session} {out : Disassembly}
    (hip : regs.get? src.machine.ip = some (src.machine.addr addr))
    (h : run src limit addr regs s = (.ok out, s')) (hfailure : out.failure ≠ none) :
    ∃ before done final pc reason n b, out.blocks = before ++ [done] ∧
      done.exit = .failed final pc reason ∧
      final.get? src.machine.ip = some (src.machine.addr pc) ∧
      Passes src n addr (.start s.discovery addr regs) pc b := by
  obtain ⟨failure, b, hdecode, rfl, -⟩ := run_eq_ok_iff.1 h
  obtain ⟨n, pc, b₁, hpasses, hend⟩ := decodeFrom_ends hdecode
  obtain ⟨blk, hblk, hblkip⟩ := hpasses.ip ⟨_, rfl, hip⟩
  rcases hend with ⟨-, hlast⟩ | ⟨-, hnone, -⟩
  · rcases decodeOne_eq_ok_iff.1 hlast with
      ⟨size, _, -, hconclude⟩ | ⟨_, reason, b₂, i, hstep, -, hclose⟩
    · -- An instruction that is carried out ends the run without a failure.
      rcases conclude_eq_ok_iff.1 hconclude with
        ⟨-, hafter, -⟩ | ⟨_, -, -, hafter, -⟩ | ⟨_, _, _, -, -, -, hafter, -⟩
      · cases hafter
        exact absurd rfl hfailure
      · cases hafter
      · cases hafter
        exact absurd rfl hfailure
    · -- What is closed is the block as it was before the instruction.
      obtain ⟨blk', hblk', -, l, hpush, rfl⟩ := Build.close_eq_ok_iff.1 hclose
      obtain ⟨-, rfl⟩ := Ledger.push_eq_ok_iff.1 hpush
      have hsame : b₁.current = some blk' := hblk'
      rw [hblk] at hsame
      cases hsame
      exact ⟨_, _, blk.regs, pc, reason, n, b₁, rfl, rfl, hblkip, hpasses⟩
  · exact absurd hnone hfailure

/-- Where no recipe claims a failure, there is no other failed block. -/
theorem eq_last_of_failed {limit : Nat} {regs : RegFile} {s s' : Session} {out : Disassembly}
    (hclaims : ∀ instr pc size,
      (src.isa.recipe instr pc size).AllSteps Recipe.Step.ClaimsNoFailure)
    (hs : s.discovery.ledger.finished = []) (h : run src limit addr regs s = (.ok out, s'))
    {blk : Block} (hblk : blk ∈ out.blocks) (hfailed : blk.exit.isFailed = true) :
    out.failure ≠ none ∧ ∀ before done, out.blocks = before ++ [done] →
      done.exit.isFailed = true → blk = done := by
  have hsrc : src.Lawful .unfailed :=
    ⟨fun _ _ => trivial, fun instr pc size => (hclaims instr pc size).imp fun _ hs => hs.lawful⟩
  have hcount := run_isFailed hsrc hs h
  constructor
  · intro hnone
    rw [hnone] at hcount
    have hpos : 0 < out.blocks.countP (·.exit.isFailed) :=
      List.countP_pos_iff.2 ⟨blk, hblk, hfailed⟩
    rw [hcount] at hpos
    exact absurd hpos (Nat.lt_irrefl 0)
  · intro before done hblocks hdone
    rw [hblocks, List.countP_append, List.countP_singleton, if_pos hdone] at hcount
    -- The count is one at most, and the last block takes it up.
    have hle : out.failure.toList.length ≤ 1 := by cases out.failure <;> simp
    have hzero : before.countP (·.exit.isFailed) = 0 := by omega
    rw [hblocks] at hblk
    rcases List.mem_append.1 hblk with hbefore | hlast
    · exact absurd hfailed (List.countP_eq_zero.1 hzero blk hbefore)
    · exact List.mem_singleton.1 hlast

/-- Decoding and the instruction pointer stay in step, up to the width of
the machine's addresses. Wherever an instruction is decoded, or fails to
be, the register holds the address in that width, and the address itself
exactly if it is in range. As long as no instruction reaches the end of
the address space it always is. The markers of the first block lie one
behind the other, and a failed block says where decoding was. -/
theorem run_follows_ip (src : Source) (addr : Word) (regs : RegFile) (s : Session)
    (hwidth : src.machine.addrWidth ≤ 64) (haddr : addr.toNat < 2 ^ src.machine.addrWidth)
    (hip : regs.get? src.machine.ip = some (src.machine.addr addr))
    (hisa : src.isa.Emits fun t => t.mark? = none) (hs : s.discovery.ledger.finished = []) :
    (∀ n pc b, Passes src n addr (.start s.discovery addr regs) pc b →
      AtIp src pc b ∧
      (src.machine.addr pc = .bv src.machine.addrWidth pc ↔
        pc.toNat < 2 ^ src.machine.addrWidth) ∧
      (src.HasRoom → pc.toNat < 2 ^ src.machine.addrWidth)) ∧
    (src.machine.addrWidth = 64 → src.HasRoom) ∧
    ∀ limit out s', run src limit addr regs s = (.ok out, s') →
      (∃ first rest last, out.blocks = first :: rest ∧ Consecutive src addr first.marks last ∧
        (first.marks.IsChain fun mark next =>
          (next.1.keepLow src.machine.addrWidth).toNat =
            (mark.1.toNat + mark.2) % 2 ^ src.machine.addrWidth) ∧
        (∀ mark ∈ first.marks, src.image.isExecutable mark.1 = true ∧
          (src.HasRoom → mark.1.toNat < 2 ^ src.machine.addrWidth)) ∧
        first.marks.length ≤ max 1 limit ∧ (first.marks = [] → out.failure ≠ none)) ∧
      (out.failure ≠ none → ∃ before done final pc reason, out.blocks = before ++ [done] ∧
        done.exit = .failed final pc reason ∧
        final.get? src.machine.ip = some (src.machine.addr pc) ∧
        (src.HasRoom → pc.toNat < 2 ^ src.machine.addrWidth)) ∧
      ((∀ instr pc size, (src.isa.recipe instr pc size).AllSteps Recipe.Step.ClaimsNoFailure) →
        ∀ blk ∈ out.blocks, ∀ final pc reason, blk.exit = .failed final pc reason →
          final.get? src.machine.ip = some (src.machine.addr pc) ∧
          (src.HasRoom → pc.toNat < 2 ^ src.machine.addrWidth)) := by
  refine ⟨fun n pc b hpasses => ⟨hpasses.ip ⟨_, rfl, hip⟩, src.machine.addr_eq_literal_iff pc,
      fun hroom => hpasses.lt_of_room hroom haddr⟩, Source.hasRoom_of_full,
    fun limit out s' h => ⟨?_, ?_, ?_⟩⟩
  · -- The markers of the first block.
    obtain ⟨first, rest, last, hblocks, hconsecutive, hlength, hempty⟩ := run_marks hisa hs h
    exact ⟨first, rest, last, hblocks, hconsecutive, hconsecutive.isChain hwidth,
      fun mark hmark => ⟨hconsecutive.isExecutable mark hmark,
        fun hroom => hconsecutive.lt_of_room hroom haddr mark hmark⟩, hlength, hempty⟩
  · -- The block in which the run fails.
    intro hfailure
    obtain ⟨before, done, final, pc, reason, n, b, hblocks, hexit, hfinal, hpasses⟩ :=
      run_failed hip h hfailure
    exact ⟨before, done, final, pc, reason, hblocks, hexit, hfinal,
      fun hroom => hpasses.lt_of_room hroom haddr⟩
  · intro hclaims blk hblk final pc reason hexit
    -- No recipe fails a block, so it is the last one, in which the run fails.
    obtain ⟨hfailure, honly⟩ := eq_last_of_failed hclaims hs h hblk (by rw [hexit]; rfl)
    obtain ⟨before, done, _, _, _, n, b, hblocks, hdone, hfinal, hpasses⟩ :=
      run_failed hip h hfailure
    obtain rfl := honly before done hblocks (by rw [hdone]; rfl)
    rw [hdone] at hexit
    cases hexit
    exact ⟨hfinal, fun hroom => hpasses.lt_of_room hroom haddr⟩

/-- A register of 16 bits. -/
def narrowRegister (name : String) : Register :=
  { name, ty := .bv 16 }

/-- A machine with addresses of 16 bits. -/
def narrowMachine : Machine where
  name := "narrow"
  addrWidth := 16
  order := .little
  registers := [narrowRegister "pc", narrowRegister "sp", narrowRegister "lr"]
  ip := 0
  sp := 1
  link := some 2

/-- One instruction goes on behind itself, another one returns. -/
def narrowIsa : InstructionSet where
  Instr := UInt8
  decode bytes _ := (bytes.head?.filter fun byte => byte == 1 || byte == 2).map (·, 1)
  recipe instr _ _ :=
    if instr = 1 then .step .advance .done else .step (.set 0 (.leaf (.reg 2))) .done

/-- Code for it, in these segments. -/
def narrowSource (segments : List Segment) : Source where
  machine := narrowMachine
  image := { order := .little, segments }
  isa := narrowIsa

/-- At function entry, with the instruction pointer at an address. -/
def narrowRegs (addr : Word) : RegFile :=
  ⟨[narrowMachine.addr addr, .initial 1 (.bv 16), .returnAddr 16]⟩

/-- Neither instruction brings a marker along. -/
theorem narrowIsa_unmarked : narrowIsa.Emits fun t => t.mark? = none := by
  intro instr pc size
  simp only [narrowIsa]
  split <;> exact ⟨trivial, trivial⟩

/-- Three instructions at address `0x10`. -/
def lowSource : Source :=
  narrowSource [.ofBytes 0x10 [1, 1, 2] Segment.codeFlags]

/-- The code ends long before the address space does. -/
theorem lowSource_hasRoom : lowSource.HasRoom := by
  intro pc instr size _ hfetch
  obtain ⟨hexecutable, bytes, -, hdecode⟩ := fetch_eq_ok_iff.1 hfetch
  have hlt : pc < 0x13 := by
    obtain ⟨seg, hseg, -⟩ := (Option.any_eq_true _ _).1 hexecutable
    have hmem := List.mem_singleton.1 (List.mem_of_find?_eq_some hseg)
    have hcontains := List.find?_some hseg
    rw [hmem] at hcontains
    exact ((Segment.contains_iff _ pc).1 hcontains).2
  have hsize : size = 1 := by
    obtain ⟨byte, -, hfound⟩ := Option.map_eq_some_iff.1 hdecode
    exact (congrArg Prod.snd hfound).symm
  show (nextPc pc size).toNat < 2 ^ 16
  rw [hsize, nextPc]
  bv_omega

/-- All three instructions are marked in the one block, and decoding has
followed the instruction pointer. -/
theorem run_follows_ip_low :
    ∃ out s', run lowSource 256 0x10 (narrowRegs 0x10) {} = (.ok out, s') ∧
      out.blocks.map Block.marks = [[(0x10, 1), (0x11, 1), (0x12, 1)]] ∧
      (∃ first rest last, out.blocks = first :: rest ∧
        Consecutive lowSource 0x10 first.marks last) ∧
      ∀ n pc b, Passes lowSource n 0x10 (.start {} 0x10 (narrowRegs 0x10)) pc b →
        AtIp lowSource pc b ∧ pc.toNat < 2 ^ 16 := by
  obtain ⟨hdecode, -, hrun⟩ := run_follows_ip lowSource 0x10 (narrowRegs 0x10) {} (by decide)
    (by decide) rfl narrowIsa_unmarked rfl
  have hmarks : (run lowSource 256 0x10 (narrowRegs 0x10) {}).1.toOption.map
      (fun out => out.blocks.map Block.marks) = some [[(0x10, 1), (0x11, 1), (0x12, 1)]] := by
    decide +kernel
  cases hresult : run lowSource 256 0x10 (narrowRegs 0x10) {} with
  | mk result s' =>
    rw [hresult] at hmarks
    cases result with
    | error e => cases hmarks
    | ok out =>
      obtain ⟨⟨first, rest, last, hblocks, hconsecutive, -⟩, -⟩ := hrun 256 out s' hresult
      refine ⟨out, s', rfl, Option.some.inj hmarks, ⟨first, rest, last, hblocks, hconsecutive⟩, ?_⟩
      intro n pc b hpasses
      obtain ⟨hip, -, hlt⟩ := hdecode n pc b hpasses
      exact ⟨hip, hlt lowSource_hasRoom⟩

/-- An instruction at the end of the address space is followed by one that
does not exist. The instruction pointer has gone on at zero, where there
is an instruction. -/
theorem run_past_the_end :
    ∃ out s' done final,
      run (narrowSource [.ofBytes 0 [2] Segment.codeFlags, .ofBytes 0xffff [1] Segment.codeFlags])
        256 0xffff (narrowRegs 0xffff) {} = (.ok out, s') ∧
      out.blocks = [done] ∧ done.marks = [(0xffff, 1)] ∧
      done.exit = .failed final 0x10000 "address is not executable" ∧
      final.get? 0 = some (.bv 16 0) := by
  refine ⟨_, _, _, _, rfl, rfl, ?_, rfl, ?_⟩
  · decide +kernel
  · decide +kernel

end Disassembly

end FlowRecovery
