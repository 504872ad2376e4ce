import FlowRecovery.Proofs.OpenBlock
import FlowRecovery.Proofs.Undo
import Mathlib.Data.List.Range

/-!
# `FlowRecovery.Proofs.Order`: blocks finish in the order of their numbers

Numbers are handed out when a block is split, long before the blocks that
get them are finished. The arms that wait form one queue, and that is
enough to keep everything in order. At any point of a run the numbers
handed out so far are, from the first one on and without a gap: those of
the finished blocks, that of the open block, and those of the arms in the
queue (`Builder.Ordered.numbers`). So a block that is closed is always
the next one in line, and the ledger has no reason to refuse it
(`Builder.Ordered.push`).

The branches of the finished blocks account for the same numbers: read in
order, their targets are all the numbers but the first
(`Builder.Ordered.targets`).

`Ensures` is the little logic in which this is carried over a run: from
states with one property a part leads to states with another, and if it
fails, then not because of the ledger.
-/

set_option autoImplicit false

namespace FlowRecovery

/-! ### Targets -/

/-- The block that a branch goes to on this side. -/
def Exit.target? : Exit → Bool → Option BlockIndex
  | .branch _ onTrue onFalse, side => some (if side then onTrue else onFalse)
  | _, _ => none

/-- The blocks that a branch goes to. -/
def Exit.targets : Exit → List BlockIndex
  | .branch _ onTrue onFalse => [onTrue, onFalse]
  | _ => []

/-- Targets are listed side by side. -/
theorem Exit.mem_targets_iff {e : Exit} {i : BlockIndex} :
    i ∈ e.targets ↔ ∃ side, e.target? side = some i := by
  cases e with
  | branch cond onTrue onFalse => simp [targets, target?, eq_comm, or_comm]
  | fetch | failed | arch => simp [targets, target?]

/-! ### The order of numbers -/

/-- The number of the open block. -/
def Builder.openIndex? (b : Builder) : Option BlockIndex := b.current.map OpenBlock.index

/-- The run that started with block `first` and assignment `low` is in
order, with these blocks waiting for their turn. -/
structure Builder.Ordered (first low : Nat) (waiting : List BlockIndex) (b : Builder) : Prop where
  first_lt : first < b.ledger.next
  numbers : b.ledger.finished.map Block.index ++ (b.openIndex?.toList ++ waiting) =
    List.range' first (b.ledger.next - first)
  targets : b.ledger.finished.flatMap (fun blk => blk.exit.targets) =
    List.range' (first + 1) (b.ledger.next - (first + 1))
  forward : ∀ blk ∈ b.ledger.finished, ∀ t ∈ blk.exit.targets, blk.index < t
  emitted : ∀ i ∈ b.ledger.emitted, i < first ∨ i ∈ b.ledger.finished.map Block.index
  last : ∀ i, b.ledger.last = some i → i < first ∨ i ∈ b.ledger.finished.map Block.index
  low_le : low ≤ b.issued
  ids : Numbered low b.issued (b.ledger.finished.flatMap Block.stmts ++ b.stmts)

namespace Builder.Ordered

variable {first low : Nat} {waiting : List BlockIndex} {b b' : Builder}

/-- Going on in the open block takes only assignment numbers, and in order.
-/
theorem of_continues (h : b.Ordered first low waiting) (hb : b.Continues True b') :
    b'.Ordered first low waiting := by
  obtain ⟨more, hmore, hnew⟩ := hb.stmts
  -- The open block keeps its number, since it keeps its place.
  have hindex : b'.openIndex? = b.openIndex? := by
    have hplace := congrArg (Option.map Prod.fst) hb.place
    rwa [Option.map_map, Option.map_map] at hplace
  have hledger := hb.ledger
  refine ⟨hledger ▸ h.first_lt, ?_, hledger ▸ h.targets, hledger ▸ h.forward,
    hledger ▸ h.emitted, hledger ▸ h.last, Nat.le_trans h.low_le hb.issued_le, ?_⟩
  · rw [hledger, hindex]
    exact h.numbers
  · rw [hledger, hmore, ← List.append_assoc]
    exact h.ids.append (hnew trivial) h.low_le hb.issued_le

/-- Where nothing is open and nothing waits, all numbers belong to
finished blocks. -/
theorem numbers_of_closed (h : b.Ordered first low []) (hclosed : b.current = none) :
    b.ledger.finished.map Block.index = List.range' first (b.ledger.next - first) := by
  have hnumbers := h.numbers
  rw [openIndex?, hclosed] at hnumbers
  simpa using hnumbers

/-- The open block comes right after the finished ones. -/
theorem lt_openIndex (h : b.Ordered first low waiting) {blk : OpenBlock}
    (hblk : b.current = some blk) :
    first ≤ blk.index ∧ blk.index < b.ledger.next ∧
      ∀ i ∈ b.ledger.finished.map Block.index, i < blk.index := by
  have hnumbers := h.numbers
  rw [openIndex?, hblk] at hnumbers
  have hmem : blk.index ∈ List.range' first (b.ledger.next - first) := by
    rw [← hnumbers]
    simp
  have hsorted : (List.range' first (b.ledger.next - first)).Pairwise (· < ·) :=
    List.pairwise_lt_range'
  rw [← hnumbers, List.pairwise_append] at hsorted
  rw [List.mem_range'_1, Nat.add_sub_of_le (Nat.le_of_lt h.first_lt)] at hmem
  exact ⟨hmem.1, hmem.2, fun i hi => hsorted.2.2 i hi blk.index (by simp)⟩

/-- The ledger takes the open block, also once it has handed out the
numbers of the blocks that the exit goes to. These wait at the end of the
queue. -/
theorem push (h : b.Ordered first low waiting) {blk : OpenBlock} (hblk : b.current = some blk)
    (exit : Exit) {k : Nat} (hexit : exit.targets = List.range' b.ledger.next k) :
    ∃ l, { b.ledger with next := b.ledger.next + k }.push
        ⟨blk.index, blk.addr, blk.stmts, exit⟩ = .ok l ∧
      Builder.Ordered first low (waiting ++ List.range' b.ledger.next k)
        { b with ledger := l, current := none } := by
  obtain ⟨hle, hlt, hbefore⟩ := h.lt_openIndex hblk
  -- The three checks of the ledger: the number has been handed out, it has
  -- not been used, and it comes after the last one.
  refine ⟨_, Ledger.push_eq_ok_iff.2 ⟨⟨Nat.lt_add_right k hlt, ?_, ?_⟩, rfl⟩, ?_⟩
  · intro hmem
    cases h.emitted _ hmem with
    | inl hold => exact Nat.not_lt.2 hle hold
    | inr hnow => exact Nat.lt_irrefl _ (hbefore _ hnow)
  · intro i hi
    cases h.last i hi with
    | inl hold => exact Nat.le_trans (Nat.le_of_lt hold) hle
    | inr hnow => exact Nat.le_of_lt (hbefore i hnow)
  · -- What has been finished so far, with the block that is closed now.
    have hnumbers := h.numbers
    rw [openIndex?, hblk] at hnumbers
    have hfirst : first ≤ b.ledger.next := Nat.le_of_lt h.first_lt
    refine ⟨Nat.lt_add_right k h.first_lt, ?_, ?_, ?_, ?_, ?_, h.low_le, ?_⟩
    · -- The numbers from `first` on: those so far, then the `k` new ones.
      show (b.ledger.finished ++ [_]).map Block.index ++ ([] ++ (waiting ++ _)) =
        List.range' first (b.ledger.next + k - first)
      rw [Nat.sub_add_comm hfirst, ← List.range'_append_1, Nat.add_sub_of_le hfirst, ← hnumbers]
      simp
    · show (b.ledger.finished ++ [_]).flatMap (fun blk : Block => blk.exit.targets) =
        List.range' (first + 1) (b.ledger.next + k - (first + 1))
      rw [Nat.sub_add_comm h.first_lt, ← List.range'_append_1, Nat.add_sub_of_le h.first_lt,
        ← h.targets, ← hexit]
      simp
    -- The new targets are numbers that come after all others.
    · intro c hc t ht
      cases List.mem_append.1 hc with
      | inl hc => exact h.forward c hc t ht
      | inr hc =>
        rw [List.mem_singleton.1 hc] at ht ⊢
        simp only [hexit, List.mem_range'_1] at ht
        exact Nat.lt_of_lt_of_le hlt ht.1
    · intro i hi
      simp only [List.map_append, List.map_cons, List.map_nil, List.mem_append]
      cases hi with
      | head => exact Or.inr (Or.inr List.mem_cons_self)
      | tail _ hi => exact (h.emitted i hi).imp id Or.inl
    -- The last number is that of the block that has just been closed.
    · intro i hi
      cases hi
      simp
    · have hids := h.ids
      rw [Builder.stmts, hblk] at hids
      simpa [Builder.stmts] using hids

/-- The first of the waiting blocks is opened. -/
theorem enter {i : BlockIndex} (h : b.Ordered first low (i :: waiting)) (hclosed : b.current = none)
    (addr : Word) (regs : RegFile) :
    Builder.Ordered first low waiting { b with current := some { index := i, addr, regs } } := by
  refine ⟨h.first_lt, ?_, h.targets, h.forward, h.emitted, h.last, h.low_le, ?_⟩
  · have hnumbers := h.numbers
    rw [openIndex?, hclosed] at hnumbers
    exact hnumbers
  · have hids := h.ids
    rw [Builder.stmts, hclosed] at hids
    exact hids

/-- Rolling back to a point without arms in the queue. -/
theorem rollback (h : b.Ordered first low []) (hgrows : b.Grows b') :
    (b'.rollback b.checkpoint).Ordered first low [] := by
  rw [hgrows.since.rollback_eq]
  refine ⟨h.first_lt, h.numbers, h.targets, h.forward, h.emitted, ?_,
    Nat.le_trans h.low_le hgrows.issued_le, h.ids.mono hgrows.issued_le⟩
  -- The last number is read off the finished blocks again.
  intro i hi
  obtain ⟨blk, hblk, rfl⟩ := Option.map_eq_some_iff.1 hi
  exact Or.inr (List.mem_map_of_mem (List.mem_of_getLast? hblk))

end Builder.Ordered

/-! ### A little logic -/

/-- The part has ended with the property, or it has failed, but not
because the ledger refuses a block. -/
def Meets {σ α : Type} (post : α → σ → Prop) : Except BuildError α × σ → Prop
  | (.ok a, s) => post a s
  | (.error e, _) => e.isRefusal = false

/-- From a state with the first property the part leads to one with the
second. -/
def Ensures {σ α : Type} (pre : σ → Prop) (x : ExceptT BuildError (StateM σ) α)
    (post : α → σ → Prop) : Prop :=
  ∀ s, pre s → Meets post (x s)

namespace Ensures

variable {σ α β : Type} {pre pre' : σ → Prop} {x : ExceptT BuildError (StateM σ) α}
  {post post' : α → σ → Prop}

/-- What a part that succeeds leads to. -/
theorem of_ok {s t : σ} {a : α} (h : Ensures pre x post) (hs : pre s) (hx : x s = (.ok a, t)) :
    post a t := by
  have hpost := h s hs
  rwa [hx] at hpost

/-- What a part that fails does not fail with. -/
theorem of_error {s t : σ} {e : BuildError} (h : Ensures pre x post) (hs : pre s)
    (hx : x s = (.error e, t)) : e.isRefusal = false := by
  have hpost := h s hs
  rwa [hx] at hpost

/-- One part after the other: what the first leads to is what the second
needs. -/
theorem bind {f : α → ExceptT BuildError (StateM σ) β} {last : β → σ → Prop}
    (hx : Ensures pre x post) (hf : ∀ a, Ensures (post a) (f a) last) :
    Ensures pre (x >>= f) last := by
  intro s hs
  rw [bind_run]
  cases hxs : x s with
  | mk result t =>
    cases result with
    | error e => exact hx.of_error hs hxs
    | ok a => exact hf a t (hx.of_ok hs hxs)

/-- A result that is there leaves the state as it is. -/
theorem pure (a : α) (h : ∀ s, pre s → post a s) :
    Ensures pre (Pure.pure a : ExceptT BuildError (StateM σ) α) post := h

/-- More may be asked before, and less promised after. -/
theorem imp (hx : Ensures pre x post) (hpre : ∀ s, pre' s → pre s)
    (hpost : ∀ a s, post a s → post' a s) : Ensures pre' x post' := by
  intro s hs
  have h := hx s (hpre s hs)
  cases hxs : x s with
  | mk result t =>
    rw [hxs] at h
    cases result with
    | error e => exact h
    | ok a => exact hpost a t h

/-- A local part preserves what going on in the open block preserves. -/
theorem of_local {own : Prop} {view : σ → Builder} (hx : Local own view x)
    (h : ∀ s, pre s → (view s).Continues own (view (x s).2) → ∀ a, post a (x s).2) :
    Ensures pre x post := by
  intro s hs
  have hpost := h s hs (hx.continues s)
  have hharmless := hx.harmless s
  cases hxs : x s with
  | mk result t =>
    rw [hxs] at hpost hharmless
    cases result with
    | error e => exact hharmless e rfl
    | ok a => exact hpost a

end Ensures

/-! ### Operations on blocks -/

namespace Build

variable {first low : Nat} {waiting : List BlockIndex}

/-- Work in the open block keeps the order, whatever waits. -/
theorem ordered_of_local {α : Type} {x : Build α} (hx : x.IsLocal True) :
    Ensures (Builder.Ordered first low waiting) x fun _ => Builder.Ordered first low waiting :=
  .of_local hx fun _ hb hcontinues _ => hb.of_continues hcontinues

/-- Closing a block with an exit that goes to no block. -/
theorem ordered_close {exit : RegFile → Exit} (hexit : ∀ regs, (exit regs).targets = []) :
    Ensures (Builder.Ordered first low waiting) (close exit) fun _ b =>
      b.Ordered first low waiting ∧ b.current = none := by
  intro b hb
  cases hblk : b.current with
  | none =>
    rw [close, openBlock_bind_of_closed hblk]
    rfl
  | some blk =>
    -- No number is handed out for such an exit.
    obtain ⟨l, hl, hordered⟩ := hb.push hblk (exit blk.regs) (k := 0) (hexit blk.regs)
    rw [close_eq_ok_iff.2 ⟨blk, hblk, rfl, l, hl, rfl⟩]
    rw [List.range'_zero, List.append_nil] at hordered
    exact ⟨hordered, rfl⟩

/-- The end of an arm closes its block, unless that has been done. -/
theorem ordered_closeIfOpen :
    Ensures (Builder.Ordered first low waiting) closeIfOpen fun _ b =>
      b.Ordered first low waiting ∧ b.current = none := by
  intro b hb
  rw [closeIfOpen, get_bind_apply]
  cases hblk : b.current with
  | none =>
    rw [Builder.isOpen, hblk]
    exact ⟨hb, hblk⟩
  | some blk =>
    rw [Builder.isOpen, hblk]
    exact (ordered_close fun _ => rfl).bind (fun _ => .pure () fun _ h => h) b hb

/-- A split queues its two blocks behind those that wait already. -/
theorem ordered_split (cond : Value) :
    Ensures (Builder.Ordered first low waiting) (split cond) fun arms b =>
      b.Ordered first low (waiting ++ [arms.1, arms.2.1]) ∧ b.current = none := by
  intro b hb
  cases hblk : b.current with
  | none =>
    rw [split, openBlock_bind_of_closed hblk]
    rfl
  | some blk =>
    -- The next two numbers are handed out, and the blocks wait for them.
    obtain ⟨l, hl, hordered⟩ := hb.push hblk
      (.branch cond b.ledger.next (b.ledger.next + 1)) (k := 2) rfl
    rw [split_eq_ok_iff.2 ⟨blk, hblk, rfl, rfl, rfl, l, hl, rfl⟩]
    exact ⟨hordered, rfl⟩

end Build

/-! ### Recipes -/

namespace Recipe

/-- The step emits no assignment of its own, builds no branch of its own,
and uses no checkpoint. -/
def Step.Orderly : Step → Prop
  | .emit s => s.assignId? = none
  | .close (.branch ..) => False
  | .save _ | .restore _ => False
  | _ => True

/-- The run is in order, and the arms that wait will keep it so. -/
structure Progress.Ordered (first low : Nat) (p : Progress) : Prop where
  builder : p.builder.Ordered first low (p.pending.map Arm.index)
  bodies : ∀ arm ∈ p.pending, arm.body.AllSteps Step.Orderly

variable {first low : Nat} {site : Site} {temps : Temps}

/-- Work in the open block, as part of a recipe: the queue stays as it is.
-/
theorem ordered_of_local {α : Type} {x : RunM α} (hx : IsLocal True x) (hqueue : KeepsQueue x) :
    Ensures (Progress.Ordered first low) x fun _ => Progress.Ordered first low := by
  refine .of_local hx fun p hp hcontinues _ => ⟨?_, ?_⟩
  · rw [hqueue p]
    exact hp.builder.of_continues hcontinues
  · rw [hqueue p]
    exact hp.bodies

/-- An operation on the builder, as part of a run. -/
theorem ensures_build {α : Type} {pre : Progress → Prop} {x : Build α} {post : α → Progress → Prop}
    (h : ∀ p, pre p → Ensures (· = p.builder) x fun a b => post a { p with builder := b }) :
    Ensures pre (build x) post := by
  intro p hp
  have hx := h p hp p.builder rfl
  rw [build_apply]
  cases hxb : x p.builder with
  | mk result b =>
    rw [hxb] at hx
    cases result with
    | error e => exact hx
    | ok a => exact hx

/-- Noting the state in the trace does not disturb the order. -/
theorem ensures_recorded {α : Type} {pre : Progress → Prop} {x : RunM α}
    {post : α → Progress → Prop} (step : Option Step) (outcome : α → Outcome)
    (hpost : ∀ a p trace, post a p → post a { p with trace }) (hx : Ensures pre x post) :
    Ensures pre (recorded step outcome x) post := by
  intro p hp
  have h := hx p hp
  rw [recorded_apply]
  cases hxp : x p with
  | mk result q =>
    rw [hxp] at h
    cases result with
    | error e => exact h
    | ok a => exact hpost a q _ h

/-- Closing the open block, other than with a branch of one's own. -/
theorem Closing.ordered_run {c : Closing} (hc : Step.Orderly (.close c)) :
    Ensures (Progress.Ordered first low) (c.run site temps)
      fun _ => Progress.Ordered first low := by
  have hclose (exit : RegFile → Exit) (hexit : ∀ regs, (exit regs).targets = []) :
      Ensures (Progress.Ordered first low) (build (Build.close exit)) fun _ =>
        Progress.Ordered first low :=
    ensures_build fun p hp => (Build.ordered_close hexit).imp (fun b hb => hb ▸ hp.builder)
      fun _ _ h => ⟨h.1, hp.bodies⟩
  cases c with
  | fetch => exact hclose .fetch fun _ => rfl
  | branch cond t f => exact hc.elim
  | failed addr reason => exact hclose (.failed · addr reason) fun _ => rfl
  | arch name args =>
    exact (ordered_of_local (local_evalTerms args) (evalTerms_keepsQueue site temps args)).bind
      fun args => hclose (.arch · name args) fun _ => rfl

/-- Every orderly step keeps the order. -/
theorem Step.ordered_run {s : Step} (hs : s.Orderly) :
    Ensures (Progress.Ordered first low) (s.run site temps)
      fun _ => Progress.Ordered first low := by
  -- Most steps only work in the open block.
  have hlocal (hopen : s.StaysOpen) (hunnamed : s.Unnamed) :
      Ensures (Progress.Ordered first low) (s.run site temps) fun _ => Progress.Ordered first low :=
    ordered_of_local (Step.local_run hopen fun _ => hunnamed) (Step.run_keepsQueue site temps s)
  cases s with
  | close c => exact (Closing.ordered_run hs).bind fun _ => .pure _ fun _ h => h
  | emit t => exact hlocal trivial hs
  | save name | restore name => exact hs.elim
  | bind | load | prim | set | setIp | advance | store | arch | fail | moveTo | look =>
    exact hlocal trivial trivial

/-- A split closes the block, and queues two arms with the next two
numbers. -/
theorem ordered_queueArms {cond : Value} {onTrue onFalse : Recipe}
    (ht : onTrue.AllSteps Step.Orderly) (hf : onFalse.AllSteps Step.Orderly) :
    Ensures (Progress.Ordered first low) (queueArms cond onTrue onFalse temps) fun _ p =>
      p.Ordered first low ∧ p.builder.current = none := by
  intro p hp
  have hsplit := Build.ordered_split cond p.builder hp.builder
  rw [queueArms, bind_run, build_apply]
  cases hsplits : Build.split cond p.builder with
  | mk result b =>
    rw [hsplits] at hsplit
    cases result with
    | error e => exact hsplit
    | ok arms =>
      obtain ⟨t, f, regs⟩ := arms
      refine ⟨⟨?_, ?_⟩, hsplit.2⟩
      · -- The numbers of the arms follow those that wait already.
        show b.Ordered first low ((p.pending ++ splitArms t f regs temps onTrue onFalse).map _)
        rw [List.map_append]
        exact hsplit.1
      · intro arm harm
        cases List.mem_append.1 harm with
        | inl hold => exact hp.bodies arm hold
        | inr hnew =>
          simp only [List.mem_cons, List.not_mem_nil, or_false] at hnew
          rcases hnew with rfl | rfl
          · exact ht
          · exact hf

/-- Carrying out a recipe keeps the order, if what happens after its
splits does. -/
theorem ordered_exec {settle : RunM Unit}
    (hsettle : Ensures (fun p => p.Ordered first low ∧ p.builder.current = none) settle fun _ p =>
      p.Ordered first low)
    {r : Recipe} (hr : r.AllSteps Step.Orderly) (temps : Temps) :
    Ensures (Progress.Ordered first low) (exec site settle r temps) fun _ =>
      Progress.Ordered first low := by
  have htrace {α : Type} (_ : α) (p : Progress) (trace : List Event) (h : p.Ordered first low) :
      Progress.Ordered first low { p with trace } := ⟨h.builder, h.bodies⟩
  induction r generalizing temps with
  | done => exact .pure () fun _ h => h
  | step s rest ih =>
    exact (ensures_recorded (some s) Prod.snd htrace (Step.ordered_run hr.1)).bind fun _ =>
      ih hr.2 _
  | branch cond onTrue onFalse rest iht ihf ihr =>
    obtain ⟨ht, hf, hrest⟩ := hr
    refine Ensures.bind (ensures_recorded none (fun _ => .nothing) htrace ?_)
      fun _ => ihr hrest temps
    refine (ordered_of_local (local_evalTerm cond) (evalTerm_keepsQueue site temps cond)).bind
      fun v => (ordered_of_local (.build (.checkCondition v)) (.build _)).bind fun _ => ?_
    -- A literal takes its arm at once; anything else splits.
    split
    · exact iht ht temps
    · exact ihf hf temps
    · exact (ordered_queueArms ht hf).bind fun _ => hsettle

/-- One arm: it takes its turn, and its block is closed in the end. -/
theorem Arm.ordered_run {arm : Arm} {p : Progress} (harm : arm.body.AllSteps Step.Orderly)
    (hp : p.builder.Ordered first low (arm.index :: p.pending.map Arm.index))
    (hbodies : ∀ arm ∈ p.pending, arm.body.AllSteps Step.Orderly)
    (hclosed : p.builder.current = none) :
    Ensures (· = p) (arm.run site) fun _ q => q.Ordered first low ∧ q.builder.current = none := by
  have henter : Ensures (· = p) (build (Build.enter arm.index arm.regs)) fun _ =>
      Progress.Ordered first low := by
    rintro _ rfl
    exact ⟨hp.enter hclosed _ _, hbodies⟩
  refine henter.bind fun _ => (ordered_exec ?_ harm arm.temps).bind fun _ => ?_
  · -- Inside an arm a split only queues; its arms are done later.
    exact .pure () fun _ h => h.1
  · exact ensures_build fun q hq => Build.ordered_closeIfOpen.imp (fun b hb => hb ▸ hq.builder)
      fun _ _ h => ⟨⟨h.1, hq.bodies⟩, h.2⟩

/-- Working off the queue: every arm finds its number next in line. -/
theorem ordered_drain (site : Site) :
    Ensures (fun p => p.Ordered first low ∧ p.builder.current = none) (drain site) fun _ p =>
      p.Ordered first low := by
  have hturn {p : Progress} {arm : Arm} {rest : List Arm} (hpending : p.pending = arm :: rest)
      (hp : p.Ordered first low ∧ p.builder.current = none) :
      Ensures (· = { p with pending := rest }) (arm.run site) fun _ q =>
        q.Ordered first low ∧ q.builder.current = none := by
    have hfirst := hp.1.builder
    have hbodies := hp.1.bodies
    rw [hpending] at hfirst hbodies
    exact Arm.ordered_run (hbodies arm List.mem_cons_self) hfirst
      (fun a ha => hbodies a (List.mem_cons_of_mem _ ha)) hp.2
  intro p hp
  refine drain_induction site (motive := fun p result =>
    p.Ordered first low ∧ p.builder.current = none →
      Meets (fun _ => Progress.Ordered first low) result) ?_ ?_ ?_ p hp
  · intro p _ hp
    exact hp.1
  · intro p arm rest p' hpending hrun ih hp
    exact ih ((hturn hpending hp).of_ok rfl hrun)
  · intro p arm rest e p' hpending hrun hp
    exact (hturn hpending hp).of_error rfl hrun

/-- The whole run of a recipe keeps the order and leaves nobody
waiting. -/
theorem ordered_run {r : Recipe} (hr : r.AllSteps Step.Orderly) (site : Site) :
    Ensures (Builder.Ordered first low []) (r.run site) fun _ => Builder.Ordered first low [] := by
  intro b hb
  have hstart : Progress.Ordered first low { builder := b } :=
    ⟨hb, fun _ harm => absurd harm List.not_mem_nil⟩
  have hexec : Meets (fun _ => Progress.Ordered first low)
      (exec site (drain site) r [] { builder := b }) :=
    ordered_exec (ordered_drain site) hr [] _ hstart
  -- What a split has queued is worked off, so nothing is left to wait for.
  have hempty := exec_settled site r [] { builder := b } rfl
  rw [run_apply, start]
  cases hrun : exec site (drain site) r [] { builder := b } with
  | mk result q =>
    rw [hrun] at hexec hempty
    cases result with
    | error e => exact hexec
    | ok u =>
      have hbuilder := hexec.builder
      rw [hempty] at hbuilder
      exact hbuilder

end Recipe

end FlowRecovery
