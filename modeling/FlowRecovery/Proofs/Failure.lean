import FlowRecovery.Proofs.Order.Disassembly

/-!
# `FlowRecovery.Proofs.Failure`: a decoding failure leaves no trace

An instruction may do anything before it fails to decode: write
registers, take numbers, close the block and finish the arms of a split.
All of that is undone. The run ends with one block that holds what the
instructions before it did, and that block is the one which a run limited
to these instructions builds (`Disassembly.run_failure`).

Two facts carry this. An instruction that control passes through has gone
on in the open block and done nothing else (`decodeOne_continues`), so
the ledger is still as the run found it. And a recipe that returns to no
checkpoint only adds to the ledger, so that rolling back restores it.
-/

set_option autoImplicit false

namespace FlowRecovery

/-! ### Staying open -/

/-- The block has been closed, or the builder has gone on in it. -/
def Builder.ClosesOrContinues (b b' : Builder) : Prop :=
  b'.current = none ∨ b.Continues False b'

/-- Once it is closed, the block stays closed, and going on is transitive.
-/
theorem Builder.ClosesOrContinues.trans {b b' b'' : Builder} (h : b.ClosesOrContinues b')
    (h' : b'.ClosesOrContinues b'') : b.ClosesOrContinues b'' := by
  cases h' with
  | inl hclosed => exact Or.inl hclosed
  | inr hcontinues =>
    exact h.imp (fun hclosed => hcontinues.current_eq_none_iff.2 hclosed) (·.trans hcontinues)

namespace Recipe

variable {site : Site} {temps : Temps} {p p' : Progress}

/-- Parts of such recipes use no checkpoint either. -/
theorem heritable_onward : Heritable (AllSteps Step.Onward) := heritable_allSteps fun _ h => h

/-- What a local part leaves behind when it succeeds. -/
theorem continues_of_ok {α : Type} {x : RunM α} {a : α} (hx : IsLocal False x)
    (h : x p = (.ok a, p')) : p.builder.Continues False p'.builder := by
  have hp := hx.continues p
  rwa [h] at hp

/-- Every step without checkpoints closes the block or goes on in it. -/
theorem Step.closesOrContinues {s : Step} {out : Temps × Outcome} (hs : s.Onward)
    (h : s.run site temps p = (.ok out, p')) : p.builder.ClosesOrContinues p'.builder := by
  have hlocal (hopen : s.StaysOpen) : p.builder.ClosesOrContinues p'.builder :=
    Or.inr (continues_of_ok (Step.local_run hopen False.elim) h)
  cases s with
  | close c =>
    obtain ⟨i, q, hrun, hpure⟩ := bind_eq_ok_iff.1 h
    obtain ⟨-, rfl⟩ := pure_eq_ok_iff.1 hpure
    obtain ⟨exit, b₁, b', -, hclose, rfl⟩ := Closing.builds_of_run hrun
    obtain ⟨_, -, -, l, -, rfl⟩ := Build.close_eq_ok_iff.1 hclose
    exact Or.inl rfl
  | save name | restore name => exact hs.elim
  | bind | load | prim | set | setIp | advance | store | emit | arch | fail | moveTo | look =>
    exact hlocal trivial

/-- Once a split has closed the block, working off its arms opens no
other block for good. -/
theorem drain_closed (site : Site) (p : Progress) (hclosed : p.builder.current = none)
    (h : drain site p = (.ok (), p')) : p'.builder.current = none := by
  refine drain_induction site (motive := fun p result =>
    p.builder.current = none → ∀ p', result = (.ok (), p') → p'.builder.current = none)
    ?_ ?_ ?_ p hclosed p' h
  · rintro p - hclosed p' h
    cases h
    exact hclosed
  · rintro p arm rest q - hrun ih - p' h
    obtain ⟨q', b, -, hclose, rfl⟩ := Arm.run_eq_ok_iff.1 hrun
    exact ih (Build.closeIfOpen_current hclose) p' h
  · rintro p arm rest e q - - - p' h
    cases h

/-- Outside of arms, a recipe that succeeds has closed the block or has
only gone on in it. -/
theorem exec_closesOrContinues {r : Recipe} (hr : r.AllSteps Step.Onward)
    (h : exec site (drain site) r temps p = (.ok (), p')) :
    p.builder.ClosesOrContinues p'.builder := by
  induction r generalizing temps p p' with
  | done =>
    cases h
    exact Or.inr (.refl _)
  | step s rest ih =>
    obtain ⟨temps', out, q, hs, hrest⟩ := exec_step_eq_ok_iff.1 h
    have hlater := ih hr.2 hrest
    exact (Step.closesOrContinues hr.1 hs).trans hlater
  | branch cond onTrue onFalse rest iht ihf ihr =>
    obtain ⟨v, b, q, hv, -, htakes, hrest⟩ := exec_branch_eq_ok h
    have heval : evalTerm site temps cond p = (.ok v, { p with builder := b }) :=
      evalTerm_eq_ok_iff.2 ⟨b, hv, rfl⟩
    have hcond : p.builder.Continues False b := continues_of_ok (local_evalTerm cond) heval
    have htaken : Builder.ClosesOrContinues b q.builder := by
      cases htakes with
      | @arm taken hexec =>
        cases taken with
        | true => exact iht hr.1 hexec
        | false => exact ihf hr.2.1 hexec
      | split _ hsplit hdrain =>
        -- The split closes the block before the arms are worked off.
        obtain ⟨_, -, -, -, -, l, -, rfl⟩ := Build.split_eq_ok_iff.1 hsplit
        exact Or.inl (drain_closed site _ rfl hdrain)
    have hlater := ihr hr.2.2 hrest
    exact Builder.ClosesOrContinues.trans (Or.inr hcond) (htaken.trans hlater)

end Recipe

/-! ### Sessions -/

/-- Every number in use is smaller than the next one. -/
structure Ledger.Bounded (l : Ledger) : Prop where
  finished : ∀ b ∈ l.finished, b.index < l.next
  emitted : ∀ i ∈ l.emitted, i < l.next
  last : ∀ i, l.last = some i → i < l.next

/-- Along the moves of a ledger the bound grows with the numbers. -/
theorem Ledger.Bounded.reaches {l l' : Ledger} (h : l.Bounded) (hreaches : l.Reaches l') :
    l'.Bounded := by
  induction hreaches with
  | refl => exact h
  | tail _ hlast ih =>
    -- A number is handed out, or a block with a number in use is taken.
    cases hlast with
    | alloc =>
      exact ⟨fun b hb => Nat.lt_succ_of_lt (ih.finished b hb),
        fun i hi => Nat.lt_succ_of_lt (ih.emitted i hi),
        fun i hi => Nat.lt_succ_of_lt (ih.last i hi)⟩
    | push hpush =>
      obtain ⟨⟨hlt, -, -⟩, rfl⟩ := push_eq_ok_iff.1 hpush
      refine ⟨?_, ?_, ?_⟩
      · intro c hc
        cases List.mem_append.1 hc with
        | inl hc => exact ih.finished c hc
        | inr hc => exact List.mem_singleton.1 hc ▸ hlt
      · intro i hi
        cases hi with
        | head => exact hlt
        | tail _ hi => exact ih.emitted i hi
      · intro i hi
        cases hi
        exact hlt

/-- Going back restores the ledger but for the last number, which is then
that of a finished block. -/
theorem Ledger.Bounded.rollback {b b' : Builder} (h : b.ledger.Bounded) (hgrows : b.Grows b') :
    (b'.rollback b.checkpoint).ledger.Bounded := by
  rw [hgrows.since.rollback_eq]
  refine ⟨h.finished, h.emitted, ?_⟩
  intro i hi
  obtain ⟨blk, hblk, rfl⟩ := Option.map_eq_some_iff.1 hi
  exact h.finished blk (List.mem_of_getLast? hblk)

namespace Disassembly

variable {src : Source} {pc : Word} {b b' : Builder}

/-- No recipe of the source uses a checkpoint. -/
def Source.Onward (src : Source) : Prop :=
  ∀ instr addr size, (src.isa.recipe instr addr size).AllSteps Recipe.Step.Onward

/-- What closing the block leaves of the ledger. -/
theorem close_bounded {exit : RegFile → Exit} {i : BlockIndex}
    (h : Build.close exit b = (.ok i, b')) (hb : b.ledger.Bounded) : b'.ledger.Bounded := by
  have hgrows := Build.Grows.close exit b
  rw [h] at hgrows
  exact hb.reaches hgrows.reaches

/-- One instruction, whichever way it ends: what it has added is bounded,
and so is what is left if it is undone. -/
theorem decodeOne_bounded (hsrc : src.Onward) {after : After}
    (h : decodeOne src pc b = (.ok after, b')) (hb : b.ledger.Bounded) : b'.ledger.Bounded := by
  have hgrows := step_grows_of_heritable Recipe.heritable_onward hsrc pc { b with instrAddr := pc }
  obtain ⟨size, b₁, hstep, hconclude⟩ | ⟨addr, reason, b₁, i, hstep, -, hclose⟩ :=
    decodeOne_eq_ok_iff.1 h
  · rw [hstep] at hgrows
    have hb₁ : b₁.ledger.Bounded := hb.reaches hgrows.reaches
    obtain ⟨-, -, rfl⟩ | ⟨_, -, -, -, rfl⟩ | ⟨_, _, _, -, -, -, -, hclose⟩ :=
      conclude_eq_ok_iff.1 hconclude
    · exact hb₁
    · exact hb₁
    · exact close_bounded hclose hb₁
  · rw [hstep] at hgrows
    exact close_bounded hclose (Ledger.Bounded.rollback (b := { b with instrAddr := pc }) hb hgrows)

/-- A session after runs that have succeeded. -/
inductive Session.Reached : Session → Prop
  | fresh : Reached {}
  | run {s s' : Session} {src : Source} {limit : Nat} {addr : Word} {regs : RegFile}
      {out : Disassembly} (hs : Reached s) (hsrc : src.Onward)
      (h : Disassembly.run src limit addr regs s = (.ok out, s')) : Reached s'

/-- A run that succeeds, as the decoding it consists of. -/
theorem run_eq_ok_iff {limit : Nat} {addr : Word} {regs : RegFile} {s s' : Session}
    {out : Disassembly} :
    run src limit addr regs s = (.ok out, s') ↔
      ∃ failure b, decodeFrom src (limit - 1) addr (.start s.discovery addr regs) =
          (.ok failure, b) ∧
        out = ⟨b.ledger.finished, nextAddresses src b.ledger.finished, failure⟩ ∧
        s' = { discovery := { b.toDiscovery with ledger := b.ledger.take.2 }
               tally := (if failure.isSome then s.tally.countDecodeFailure else s.tally)
                 |>.countDisassembled b.ledger.finished.length } := by
  rw [run]
  cases decodeFrom src (limit - 1) addr (.start s.discovery addr regs) with
  | mk result b =>
    cases result with
    | error e =>
      constructor
      · intro h
        cases h
      · rintro ⟨_, _, h, -⟩
        cases h
    | ok failure =>
      constructor
      · intro h
        cases h
        exact ⟨failure, b, rfl, rfl, rfl⟩
      · rintro ⟨_, _, h, rfl, rfl⟩
        cases h
        rfl

/-- Between runs nothing is finished that has not been taken, and all
numbers in use are smaller than the next one. -/
theorem Session.Reached.rested {s : Session} (hs : s.Reached) : s.discovery.Rested := by
  induction hs with
  | fresh => exact Discovery.rested_fresh
  | @run s _ src limit addr regs out _ hsrc h ih =>
    obtain ⟨failure, b, hdecode, -, rfl⟩ := run_eq_ok_iff.1 h
    -- The new run has its first number, and the others are smaller.
    have hstart : (Builder.start s.discovery addr regs).ledger.Bounded :=
      ⟨fun blk hblk => absurd (ih.finished ▸ hblk) List.not_mem_nil,
        fun i hi => Nat.lt_succ_of_lt (ih.emitted i hi),
        fun i hi => Nat.lt_succ_of_lt (ih.last i hi)⟩
    obtain ⟨n, pc, b₁, hpasses, hend⟩ := decodeFrom_eq_ok hdecode
    have hb₁ : b₁.ledger.Bounded :=
      hpasses.induction (fun _ _ _ _ hone => decodeOne_bounded hsrc hone) hstart
    have hb : b.ledger.Bounded := by
      obtain ⟨-, hlast⟩ | ⟨i, -, hclose⟩ := hend
      · exact decodeOne_bounded hsrc hlast hb₁
      · exact close_bounded hclose hb₁
    exact ⟨rfl, hb.emitted, hb.last⟩

/-! ### The first block of a run -/

/-- The run is still in its first block, and the ledger is as the run
found it. -/
structure OnFirst (d : Discovery) (addr : Word) (blk : OpenBlock) (b : Builder) : Prop where
  current : b.current = some blk
  index : blk.index = d.ledger.next
  addr : blk.addr = addr
  next : b.ledger.next = d.ledger.next + 1
  finished : b.ledger.finished = []
  emitted : ∀ i ∈ b.ledger.emitted, i < d.ledger.next
  last : ∀ i, b.ledger.last = some i → i < d.ledger.next

namespace OnFirst

variable {d : Discovery} {addr : Word} {blk : OpenBlock}

/-- A run starts in its first block. -/
theorem start (hd : d.Rested) (addr : Word) (regs : RegFile) :
    OnFirst d addr { index := d.ledger.next, addr, regs } (.start d addr regs) :=
  ⟨rfl, rfl, rfl, rfl, hd.finished, hd.emitted, hd.last⟩

/-- It is still there after going on in the open block. -/
theorem of_continues (h : OnFirst d addr blk b) (hcontinues : b.Continues False b') :
    ∃ blk', OnFirst d addr blk' b' := by
  have hplace := hcontinues.place
  have hledger := hcontinues.ledger
  rw [h.current] at hplace
  obtain ⟨blk', hblk', hsame⟩ := Option.map_eq_some_iff.1 hplace
  obtain ⟨hindex, haddr⟩ := Prod.mk.inj hsame
  exact ⟨blk', hblk', hindex.trans h.index, haddr.trans h.addr, hledger ▸ h.next,
    hledger ▸ h.finished, hledger ▸ h.emitted, hledger ▸ h.last⟩

/-- It is there again after an instruction has been undone. -/
theorem rollback (h : OnFirst d addr blk b) (hgrows : b.Grows b') :
    OnFirst d addr blk (b'.rollback b.checkpoint) := by
  rw [hgrows.since.rollback_eq]
  refine ⟨h.current, h.index, h.addr, h.next, h.finished, h.emitted, ?_⟩
  -- Nothing has been finished in this run, so no number counts as last.
  intro i hi
  rw [h.finished] at hi
  cases hi

/-- The ledger takes the first block, whatever its exit. -/
theorem close (h : OnFirst d addr blk b) (exit : RegFile → Exit) :
    ∃ b', Build.close exit b = (.ok blk.index, b') ∧
      b'.ledger.finished = [⟨blk.index, blk.addr, blk.stmts, exit blk.regs⟩] := by
  have htaken : blk.index < b.ledger.next ∧ blk.index ∉ b.ledger.emitted ∧
      ∀ last, b.ledger.last = some last → last ≤ blk.index := by
    refine ⟨?_, ?_, ?_⟩
    · rw [h.next, h.index]
      exact Nat.lt_succ_self _
    · intro hmem
      exact Nat.lt_irrefl _ (h.index ▸ h.emitted _ hmem)
    · intro i hi
      rw [h.index]
      exact Nat.le_of_lt (h.last i hi)
  refine ⟨_, Build.close_eq_ok_iff.2
    ⟨blk, h.current, rfl, _, Ledger.push_eq_ok_iff.2 ⟨htaken, rfl⟩, rfl⟩, ?_⟩
  simp [h.finished]

end OnFirst

/-- An instruction that control passes through has only gone on in the
open block. -/
theorem decodeOne_continues (hsrc : src.Onward) {next : Word}
    (h : decodeOne src pc b = (.ok (.fallsThrough next), b')) : b.Continues False b' := by
  obtain ⟨size, blk, hstep, -, hopen, -⟩ := decodeOne_eq_fallsThrough_iff.1 h
  obtain ⟨instr, b₁, q, -, hemit, hstart, rfl⟩ := step_eq_ok_iff.1 hstep
  have hlocal : Build.IsLocal False (Build.emit (.instruction pc size)) := .emit False.elim
  have hmark := hlocal.continues { b with instrAddr := pc }
  rw [hemit] at hmark
  have hmoved : b.Continues False { b with instrAddr := pc } := .of_eq rfl rfl (Nat.le_refl _)
  have hrecipe := Recipe.exec_closesOrContinues (hsrc instr pc size) hstart
  -- The block is open, so the recipe has not closed it.
  refine hmoved.trans (Builder.Continues.trans hmark (hrecipe.resolve_left ?_))
  rw [hopen]
  exact Option.some_ne_none blk

/-- So it is behind all instructions that control passes through. -/
theorem onFirst_of_passes (hsrc : src.Onward) {d : Discovery} {addr pc' : Word} {n : Nat}
    (h : Passes src n pc b pc' b') (hb : ∃ blk, OnFirst d addr blk b) :
    ∃ blk, OnFirst d addr blk b' := by
  refine h.induction (P := fun b => ∃ blk, OnFirst d addr blk b) ?_ hb
  rintro _ _ _ _ hone ⟨_, hfirst⟩
  exact hfirst.of_continues (decodeOne_continues hsrc hone)

/-- Where a run from this session fails to decode: behind `n`
instructions that control passes through. -/
def FailsAfter (src : Source) (addr : Word) (regs : RegFile) (s : Session) (n : Nat) (pc : Word)
    (e : BuildError) : Prop :=
  ∃ b, Passes src n addr (.start s.discovery addr regs) pc b ∧
    (step src pc { b with instrAddr := pc }).1 = .error e

/-- A run that ends with a decoding failure failed behind some number of
instructions. Wherever a run fails, it succeeds with one block, as long as
there are numbers for all that the instruction builds. That block names the
instruction that failed, and otherwise it is the one that a run of the
instructions before it builds, or holds nothing if there are none. -/
theorem run_failure (hsrc : src.Onward) {s : Session} (hs : s.Reached) (limit : Nat) (addr : Word)
    (regs : RegFile) :
    (∀ out s' e, run src limit addr regs s = (.ok out, s') → out.failure = some e →
      ∃ n pc a reason, n ≤ limit - 1 ∧ e = .decode a reason ∧ FailsAfter src addr regs s n pc e) ∧
    (NumbersFit src limit addr (.start s.discovery addr regs) →
      ∀ n pc a reason, n ≤ limit - 1 → FailsAfter src addr regs s n pc (.decode a reason) →
      ∃ out s' blk final, run src limit addr regs s = (.ok out, s') ∧
        out.failure = some (.decode a reason) ∧ out.blocks = [blk] ∧
        blk.exit = .failed final pc reason ∧
        (n = 0 → blk.index = s.discovery.ledger.next ∧ blk.addr = addr ∧ blk.stmts = [] ∧
          final = regs) ∧
        (1 ≤ n → ∃ out' s'', run src n addr regs s = (.ok out', s'') ∧ out'.failure = none ∧
          out'.blocks = [{ blk with exit := .fetch final }])) := by
  constructor
  -- The run has failed in its last instruction, and that is where its failure comes
  -- from.
  · intro out s' e hrun hfailure
    obtain ⟨failure, b, hdecode, rfl, -⟩ := run_eq_ok_iff.1 hrun
    cases hfailure
    obtain ⟨n, pc, b₁, hpasses, ⟨hle, hlast⟩ | ⟨_, hnone, -⟩⟩ := decodeFrom_eq_ok hdecode
    · obtain ⟨size, b₂, -, hconclude⟩ | ⟨a, reason, b₂, i, hstep, hafter, -⟩ :=
        decodeOne_eq_ok_iff.1 hlast
      · obtain ⟨-, h, -⟩ | ⟨_, -, -, h, -⟩ | ⟨_, _, _, -, -, -, h, -⟩ :=
          conclude_eq_ok_iff.1 hconclude <;> cases h
      · cases hafter
        exact ⟨n, pc, a, reason, hle, rfl, b₁, hpasses, by rw [hstep]⟩
    · cases hnone
  · rintro - n pc a reason hle ⟨b, hpasses, hstep⟩
    obtain ⟨blk, hfirst⟩ := onFirst_of_passes hsrc hpasses ⟨_, .start hs.rested addr regs⟩
    have hmoved : OnFirst s.discovery addr blk { b with instrAddr := pc } :=
      ⟨hfirst.current, hfirst.index, hfirst.addr, hfirst.next, hfirst.finished, hfirst.emitted,
        hfirst.last⟩
    -- Whatever the instruction did, rolling back leads to the first block
    -- again, and the ledger takes it.
    have hgrows :=
      step_grows_of_heritable Recipe.heritable_onward hsrc pc { b with instrAddr := pc }
    obtain ⟨b', hclose, hfinished⟩ := (hmoved.rollback hgrows).close (.failed · pc reason)
    have hone : decodeOne src pc b = (.ok (.closed (some (.decode a reason))), b') :=
      decodeOne_eq_ok_iff.2 (Or.inr ⟨a, reason, _, blk.index, Prod.ext hstep rfl, rfl, hclose⟩)
    have hdecode : decodeFrom src (limit - 1) addr (.start s.discovery addr regs) =
        (.ok (some (.decode a reason)), b') := by
      obtain ⟨more, hmore⟩ := Nat.exists_eq_add_of_le hle
      rw [hmore, hpasses.decodeFrom_eq]
      cases more <;> rw [decodeFrom, bind_apply_of_ok hone] <;> rfl
    refine ⟨_, _, ⟨blk.index, blk.addr, blk.stmts, .failed blk.regs pc reason⟩, blk.regs,
      run_eq_ok_iff.2 ⟨_, b', hdecode, rfl, rfl⟩, rfl, hfinished, rfl, ?_, ?_⟩
    · rintro rfl
      cases hpasses
      obtain rfl := Option.some.inj hfirst.current
      exact ⟨rfl, rfl, rfl, rfl⟩
    · intro hn
      -- The same instructions, with the limit right behind them.
      obtain ⟨m, rfl⟩ := Nat.exists_eq_add_of_le' hn
      obtain ⟨b'', hclose', hfinished'⟩ := hfirst.close .fetch
      have hstop : decodeFrom src m addr (.start s.discovery addr regs) = (.ok none, b'') := by
        rw [hpasses.decodeFrom_stop, bind_apply_of_ok hclose']
        rfl
      exact ⟨_, _, run_eq_ok_iff.2 ⟨none, b'', hstop, rfl, rfl⟩, rfl, hfinished'⟩

open Recipe (flagMachine)

/-- A session in which one run has built five blocks. -/
def forkSession : Session := (run forkSource defaultLimit 0x1000 (.symbolic flagMachine) {}).2

/-- The second instruction from here on takes a number and splits the
block before it fails. None of this is left, and the count of the first
one is. -/
theorem run_failure_fork :
    forkSource.Onward ∧ forkSession.Reached ∧ forkSession.discovery.ledger.next = 5 ∧
      NumbersFit forkSource defaultLimit 0x1002
        (.start forkSession.discovery 0x1002 (.symbolic flagMachine)) ∧
      FailsAfter forkSource 0x1002 (.symbolic flagMachine) forkSession 1 0x1003
        (.decode 0x1003 "unknown") ∧
      ∃ out s' blk final, run forkSource defaultLimit 0x1002 (.symbolic flagMachine) forkSession =
          (.ok out, s') ∧
        out.blocks = [blk] ∧ blk.exit = .failed final 0x1003 "unknown" ∧
        ∃ out' s'', run forkSource 1 0x1002 (.symbolic flagMachine) forkSession =
            (.ok out', s'') ∧
          out'.blocks = [{ blk with exit := .fetch final }] := by
  have hrecipe (instr : UInt8) : (forkRecipe instr).AllSteps Recipe.Step.Onward := by
    unfold forkRecipe
    split <;> simp [Recipe.AllSteps, Recipe.Step.Onward]
  have hsrc : forkSource.Onward := fun instr _ _ => hrecipe instr
  -- The session is what a first run has left behind.
  have hreached : forkSession.Reached := by
    have hok : (run forkSource defaultLimit 0x1000 (.symbolic flagMachine) {}).1.toOption.isSome =
        true := by decide +kernel
    rw [forkSession]
    generalize hanswer :
      run forkSource defaultLimit 0x1000 (.symbolic flagMachine) {} = answer at hok
    obtain ⟨result, s⟩ := answer
    cases result with
    | error e => cases hok
    | ok out => exact .run .fresh hsrc hanswer
  have hpass : (decodeOne forkSource 0x1002
      (.start forkSession.discovery 0x1002 (.symbolic flagMachine))).1 =
      .ok (.fallsThrough 0x1003) := by decide +kernel
  have hfit : NumbersFit forkSource defaultLimit 0x1002
      (.start forkSession.discovery 0x1002 (.symbolic flagMachine)) := by
    have hfirst : (step forkSource 0x1002 { Builder.start forkSession.discovery 0x1002
        (.symbolic flagMachine) with instrAddr := 0x1002 }).2.ledger.next = 6 := by decide +kernel
    have hsecond : (step forkSource 0x1003 { (decodeOne forkSource 0x1002
        (.start forkSession.discovery 0x1002 (.symbolic flagMachine))).2 with
          instrAddr := 0x1003 }).2.ledger.next = 8 := by decide +kernel
    have hstop : (decodeOne forkSource 0x1003 (decodeOne forkSource 0x1002
        (.start forkSession.discovery 0x1002 (.symbolic flagMachine))).2).1 =
        .ok (.closed (some (.decode 0x1003 "unknown"))) := by decide +kernel
    -- Only two instructions are come to, and the second one fails.
    rintro n pc b - hpasses
    cases hpasses with
    | nil =>
      rw [hfirst]
      decide
    | cons hone hrest =>
      rw [hone] at hpass hsecond hstop
      cases hpass
      cases hrest with
      | nil =>
        rw [hsecond]
        decide
      | cons htwo =>
        rw [htwo] at hstop
        cases hstop
  have hfails : FailsAfter forkSource 0x1002 (.symbolic flagMachine) forkSession 1 0x1003
      (.decode 0x1003 "unknown") := by
    have hfail : (step forkSource 0x1003 { (decodeOne forkSource 0x1002
        (.start forkSession.discovery 0x1002 (.symbolic flagMachine))).2 with
          instrAddr := 0x1003 }).1 = .error (.decode 0x1003 "unknown") := by decide +kernel
    exact ⟨_, .cons (Prod.ext hpass rfl) (.nil _ _), hfail⟩
  obtain ⟨out, s', blk, final, hrun, -, hblocks, hexit, -, hprefix⟩ :=
    (run_failure hsrc hreached defaultLimit 0x1002 (.symbolic flagMachine)).2 hfit 1 0x1003 0x1003
      "unknown" (by decide) hfails
  obtain ⟨out', s'', hrun', -, hblocks'⟩ := hprefix (Nat.le_refl 1)
  exact ⟨hsrc, hreached, by decide +kernel, hfit, hfails, out, s', blk, final, hrun, hblocks, hexit,
    out', s'', hrun', hblocks'⟩

end Disassembly

end FlowRecovery
