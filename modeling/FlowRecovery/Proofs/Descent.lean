import FlowRecovery.Proofs.Law
import FlowRecovery.Proofs.Operation
import FlowRecovery.Proofs.Scope

/-!
# `FlowRecovery.Proofs.Descent`: assignments read earlier ones

An assignment gets the next number there is, so the values that it reads
have smaller ones, provided that no value mentions a number before it has
been taken. This file says that no value does, in all that is built: the
registers and remembered results of the open block, those of the blocks
that checkpoints hold, the registers and temporaries of waiting arms
(`Recipe.Progress.Descends`).

What a caller hands in has to mention taken numbers only, and must not be
an assignment as it is. It need not have been built by the block at hand:
it can come from another block, another run, or from work that has been
undone since. That is sound because the count of numbers never goes down,
not even when a builder goes back to a checkpoint. `Issues` keeps track of
it: a part of a run keeps the invariant, gives no number back, and returns
what is known by then.
-/

set_option autoImplicit false

namespace FlowRecovery

/-! ### Numbers taken so far -/

/-- The value mentions an assignment below `n`, or none. -/
def Value.Below (n : Nat) (v : Value) : Prop :=
  ∀ id, v.assignId? = some id → id < n

namespace Value

variable {n m : Nat} {v : Value}

/-- Numbers that have been taken stay taken. -/
theorem Below.mono (h : v.Below n) (hle : n ≤ m) : v.Below m := fun id hid =>
  Nat.lt_of_lt_of_le (h id hid) hle

/-- A value that mentions no assignment is below everything. -/
theorem below_of_constant (h : v.assignId? = none) (n : Nat) : v.Below n := by
  intro id hid
  rw [h] at hid
  cases hid

/-- A new number is below the next one. -/
theorem below_assign (n : Nat) (ty : Ty) : (Value.assign n ty).Below (n + 1) := by
  intro id hid
  cases hid
  exact Nat.lt_succ_self n

end Value

/-- So do all values in the registers. -/
def RegFile.Below (n : Nat) (regs : RegFile) : Prop :=
  ∀ v ∈ regs.values, v.Below n

namespace RegFile

variable {n m : Nat} {regs regs' : RegFile}

/-- What was below a bound is below every greater one. -/
theorem Below.mono (h : regs.Below n) (hle : n ≤ m) : regs.Below m := fun v hv => (h v hv).mono hle

/-- Writing a register brings in the new value and nothing else. -/
theorem Below.set (h : regs.Below n) {r : Reg} {v : Value} (hv : v.Below n)
    (hset : regs.set r v = .ok regs') : regs'.Below n := by
  obtain ⟨-, rfl⟩ := set_eq_ok_iff.1 hset
  intro u hu
  rcases List.mem_or_eq_of_mem_set hu with hold | rfl
  · exact h u hold
  · exact hv

end RegFile

/-- An assignment reads assignments with smaller numbers only. -/
def Stmt.Descends (s : Stmt) : Prop :=
  ∀ id, s.assignId? = some id → ∀ v ∈ s.uses, v.Below id

/-- A statement that assigns nothing has nothing to descend from. -/
theorem Stmt.descends_of_unnamed {s : Stmt} (h : s.assignId? = none) : s.Descends := by
  intro id hid
  rw [h] at hid
  cases hid

/-- The assignments descend, and what can be read or used again mentions
numbers below `n`. -/
structure OpenBlock.Descends (n : Nat) (blk : OpenBlock) : Prop where
  stmts : ∀ s ∈ blk.stmts, s.Descends
  regs : blk.regs.Below n
  memo : ∀ entry ∈ blk.memo, entry.2.Below n

/-- What the block mentions stays known while more numbers are taken. -/
theorem OpenBlock.Descends.mono {n m : Nat} {blk : OpenBlock} (h : blk.Descends n) (hle : n ≤ m) :
    blk.Descends m :=
  ⟨h.stmts, h.regs.mono hle, fun entry hentry => (h.memo entry hentry).mono hle⟩

/-- Another statement at the end, and perhaps another entry in the table.
-/
theorem OpenBlock.Descends.append {n : Nat} {blk : OpenBlock} (h : blk.Descends n) {s : Stmt}
    (hs : s.Descends) {memo : List (Rhs × Value)} (hmemo : ∀ entry ∈ memo, entry.2.Below n) :
    OpenBlock.Descends n { blk with stmts := blk.stmts ++ [s], memo } :=
  ⟨List.forall_mem_append.2 ⟨h.stmts, List.forall_mem_singleton.2 hs⟩, h.regs, hmemo⟩

/-- The assignments descend, and the exit mentions numbers below `n`. -/
structure Block.Descends (n : Nat) (blk : Block) : Prop where
  stmts : ∀ s ∈ blk.stmts, s.Descends
  exit : ∀ v ∈ blk.exit.values, v.Below n

/-- The same for a finished block. -/
theorem Block.Descends.mono {n m : Nat} {blk : Block} (h : blk.Descends n) (hle : n ≤ m) :
    blk.Descends m :=
  ⟨h.stmts, fun v hv => (h.exit v hv).mono hle⟩

/-- All assignments descend, those of the open block and those of the
finished ones, and the blocks mention numbers that have been taken. -/
structure Builder.Descends (b : Builder) : Prop where
  current : ∀ blk, b.current = some blk → blk.Descends b.issued
  finished : ∀ blk ∈ b.ledger.finished, blk.Descends b.issued

/-- The statements that the builder holds. -/
def Builder.written (b : Builder) : List Stmt :=
  b.stmts ++ b.ledger.finished.flatMap Block.stmts

/-- All statements that the builder holds descend, in whichever block they
are. -/
theorem Builder.Descends.written {b : Builder} (h : b.Descends) : ∀ s ∈ b.written, s.Descends := by
  refine List.forall_mem_append.2 ⟨fun s hs => ?_, fun s hs => ?_⟩
  · rw [Builder.stmts] at hs
    cases hblk : b.current with
    | none =>
      rw [hblk] at hs
      cases hs
    | some blk =>
      rw [hblk] at hs
      exact (h.current blk hblk).stmts s hs
  · obtain ⟨blk, hblk, hs⟩ := List.mem_flatMap.1 hs
    exact (h.finished blk hblk).stmts s hs

/-- The address of new blocks does not matter. -/
theorem Builder.Descends.moveTo {b : Builder} (h : b.Descends) (addr : Word) :
    Builder.Descends { b with instrAddr := addr } :=
  ⟨h.current, h.finished⟩

/-- Going back brings the open block of the checkpoint back and drops
finished blocks. The count stays, so that all of it is still below. -/
theorem Builder.Descends.rollback {b : Builder} (h : b.Descends) {c : Checkpoint}
    (hc : ∀ blk, c.current = some blk → blk.Descends b.issued) : (b.rollback c).Descends :=
  ⟨hc, fun blk hblk => h.finished blk (List.mem_of_mem_take hblk)⟩

/-! ### Parts of a run -/

/-- What is left after a part of a run: the invariant holds, no number has
been given back, and the result, if there is one, is fine by now. `view` is
the builder that the state holds. -/
structure Issues.Post {σ α : Type} (I : σ → Prop) (view : σ → Builder) (Q : Nat → α → Prop) (s : σ)
    (out : Except BuildError α × σ) : Prop where
  inv : I out.2
  le : (view s).issued ≤ (view out.2).issued
  result : ∀ a, out.1 = .ok a → Q (view out.2).issued a

/-- The part of a run can be done once `n` numbers have been taken. -/
def Issues {σ α : Type} (I : σ → Prop) (view : σ → Builder) (n : Nat)
    (x : ExceptT BuildError (StateM σ) α) (Q : Nat → α → Prop) : Prop :=
  ∀ s, I s → n ≤ (view s).issued → Issues.Post I view Q s (x s)

namespace Issues

variable {σ α β : Type} {I : σ → Prop} {view : σ → Builder} {n m : Nat} {Q : Nat → α → Prop}
  {R : Nat → β → Prop} {x : ExceptT BuildError (StateM σ) α}

/-- A result that is fine by now is fine whenever it is returned. -/
theorem pure {a : α} (ha : ∀ k, n ≤ k → Q k a) :
    Issues I view n (Pure.pure a : ExceptT BuildError (StateM σ) α) Q := by
  intro s hs hn
  refine ⟨hs, Nat.le_refl _, fun b hb => ?_⟩
  cases hb
  exact ha _ hn

/-- A result of which nothing is asked. -/
theorem done (a : α) :
    Issues I view n (Pure.pure a : ExceptT BuildError (StateM σ) α) fun _ _ => True :=
  pure fun _ _ => trivial

/-- A failure has no result that could be wrong. -/
theorem fail (e : BuildError) :
    Issues I view n (throw e : ExceptT BuildError (StateM σ) α) Q := by
  intro s hs _
  refine ⟨hs, Nat.le_refl _, fun a ha => ?_⟩
  cases ha

/-- One part after the other. The second one may use that the result of the
first is known by then, and is asked about with the count that the first
one has left. -/
theorem bind {f : α → ExceptT BuildError (StateM σ) β} (hx : Issues I view n x Q)
    (hf : ∀ k a, n ≤ k → Q k a → Issues I view k (f a) R) : Issues I view n (x >>= f) R := by
  intro s hs hn
  have hpost := hx s hs hn
  rw [bind_run]
  cases hxs : x s with
  | mk result t =>
    rw [hxs] at hpost
    cases result with
    | error e =>
      refine ⟨hpost.inv, hpost.le, fun a ha => ?_⟩
      cases ha
    | ok a =>
      -- The count that the second part starts from is the one that the first part has
      -- left.
      have hlast :=
        hf _ a (Nat.le_trans hn hpost.le) (hpost.result a rfl) t hpost.inv (Nat.le_refl _)
      exact ⟨hlast.inv, Nat.le_trans hpost.le hlast.le, hlast.result⟩

/-- A function applied to the result. -/
theorem map {f : α → β} (hx : Issues I view n x Q)
    (hf : ∀ k a, Q k a → ∀ l, k ≤ l → R l (f a)) : Issues I view n (f <$> x) R := by
  rw [map_eq_pure_bind]
  exact hx.bind fun k a _ ha => pure (hf k a ha)

/-- As an invariant: the count never falls below a bound that it has
reached. -/
theorem preserves (hx : Issues I view n x Q) {k : Nat} (hk : n ≤ k) :
    Preserves (fun s => I s ∧ k ≤ (view s).issued) x := by
  intro s hs
  have hpost := hx s hs.1 (Nat.le_trans hk hs.2)
  exact ⟨hpost.inv, Nat.le_trans hs.2 hpost.le⟩

/-- It is enough to keep every lower bound on the count. -/
theorem of_preserves (hx : ∀ k, n ≤ k → Preserves (fun s => I s ∧ k ≤ (view s).issued) x) :
    Issues I view n x fun _ _ => True := by
  intro s hs hn
  obtain ⟨hinv, hle⟩ := hx _ hn s ⟨hs, Nat.le_refl _⟩
  exact ⟨hinv, hle, fun _ _ => trivial⟩

end Issues

/-! ### Operations -/

namespace Build

variable {α : Type} {n : Nat} {Q : Nat → α → Prop}

/-- An operation on the builder itself. -/
abbrev Issues (n : Nat) (x : Build α) (Q : Nat → α → Prop) : Prop :=
  FlowRecovery.Issues Builder.Descends id n x Q

/-- An operation that returns nothing of which anything is asked. -/
abbrev Safe (n : Nat) (x : Build α) : Prop := Issues n x fun _ _ => True

/-- Work on the open block starts from a block that descends. -/
theorem issues_openBlock_bind {f : OpenBlock → Build α}
    (hf : ∀ k blk, n ≤ k → blk.Descends k → Issues k (f blk) Q) :
    Issues n (openBlock >>= f) Q := by
  intro b hb hn
  cases hblk : b.current with
  | none =>
    rw [openBlock_bind_of_closed hblk]
    exact FlowRecovery.Issues.fail _ b hb hn
  | some blk =>
    rw [openBlock_bind_of_open hblk]
    exact hf b.issued blk hn (hb.current blk hblk) b hb (Nat.le_refl _)

/-- A block that descends may take the place of the open one. -/
theorem safe_putBlock {blk : OpenBlock} (hblk : blk.Descends n) : Safe n (putBlock blk) := by
  intro b hb hn
  refine ⟨⟨fun other hother => ?_, hb.finished⟩, Nat.le_refl _, fun _ _ => trivial⟩
  cases hother
  exact hblk.mono hn

/-- What a register holds has been known before. -/
theorem issues_getRegister (r : Reg) : Issues n (getRegister r) fun k v => v.Below k := by
  refine issues_openBlock_bind fun k blk _ hblk => ?_
  cases hget : blk.regs.get? r with
  | none => exact .fail _
  | some v => exact .pure fun l hl => (hblk.regs v (List.mem_of_getElem? hget)).mono hl

/-- A known value may be written to a register. -/
theorem safe_setRegister (m : Machine) (r : Reg) {v : Value} (hv : v.Below n) :
    Safe n (setRegister m r v) := by
  refine issues_openBlock_bind fun k blk hk hblk => ?_
  split
  · exact .done ()
  · cases hset : blk.regs.set r v with
    | error e => exact .fail _
    | ok regs => exact safe_putBlock ⟨hblk.stmts, hblk.regs.set (hv.mono hk) hset, hblk.memo⟩

/-- The new instruction pointer is a literal. -/
theorem safe_setIp (m : Machine) (addr : Word) : Safe n (setIp m addr) :=
  safe_setRegister m m.ip (Value.below_of_constant rfl n)

/-- A statement that assigns nothing may be appended. -/
theorem safe_emit {s : Stmt} (hs : s.assignId? = none) : Safe n (emit s) :=
  issues_openBlock_bind fun _ _ _ hblk =>
    safe_putBlock (hblk.append (Stmt.descends_of_unnamed hs) hblk.memo)

/-- A new name is greater than everything that the right-hand side reads. -/
theorem issues_define {rhs : Rhs} {memoize : Bool}
    (hshared : remembers rhs memoize = rhs.isShared) (ty : Ty)
    (hrhs : ∀ u ∈ rhs.operands, u.Below n) :
    Issues n (define rhs ty memoize) fun k v => v.Below k := by
  intro b hb hn
  cases hblk : b.current with
  | none =>
    rw [define, openBlock_bind_of_closed hblk]
    exact FlowRecovery.Issues.fail _ b hb hn
  | some blk =>
    have hopen := hb.current blk hblk
    rcases define_cases hblk hshared ty with ⟨v, -, hmemo, hdefine⟩ | ⟨-, hdefine⟩
    · -- The name is an old one, and the table mentions taken numbers only.
      rw [hdefine]
      refine ⟨hb, Nat.le_refl _, fun u hu => ?_⟩
      cases hu
      exact hopen.memo _ (mem_of_lookup_eq_some hmemo)
    · -- The name is the next number, and so greater than all that the operands mention.
      rw [hdefine]
      have hle : b.issued ≤ b.issued + 1 := Nat.le_succ _
      refine ⟨⟨fun other hother => ?_, fun done hdone => (hb.finished done hdone).mono hle⟩, hle,
        fun u hu => ?_⟩
      · cases hother
        refine (hopen.mono hle).append (fun id hid u hu => ?_) fun entry hentry => ?_
        · cases hid
          exact (hrhs u hu).mono hn
        · split at hentry
          · rcases List.mem_cons.1 hentry with rfl | hold
            · exact Value.below_assign b.issued ty
            · exact (hopen.memo entry hold).mono hle
          · exact (hopen.memo entry hentry).mono hle
      · cases hu
        exact Value.below_assign b.issued ty

/-- The result of a primitive gets a name. -/
theorem issues_evaluatePrim {p : Prim} (hp : ∀ u ∈ p.args, u.Below n) :
    Issues n (evaluatePrim p) fun k v => v.Below k :=
  issues_define rfl p.ty hp

/-- Folding brings no new number in. -/
theorem issues_evaluateApp {app : App} (happ : ∀ u ∈ app.operands, u.Below n) :
    Issues n (evaluateApp app) fun k v => v.Below k := by
  unfold evaluateApp
  cases app.resultType with
  | error e => exact .fail _
  | ok ty =>
    cases hfold : app.fold with
    | none => exact issues_define rfl ty happ
    | some v =>
      refine FlowRecovery.Issues.pure fun k hk => ?_
      cases App.fold_mem hfold with
      | inl hconstant => exact Value.below_of_constant hconstant.assignId? k
      | inr hoperand => exact (happ v hoperand).mono hk

/-- Evaluation returns a value that is known by then. -/
theorem issues_evaluate {e : Expr Value} (he : e.All (Value.Below n)) :
    Issues n (evaluate e) fun k v => v.Below k := by
  -- What has been evaluated before stays known while the rest is evaluated.
  induction e generalizing n with
  | leaf v => exact .pure fun k hk => he.mono hk
  | unary op arg ih =>
    exact (ih he).bind fun k u _ hu => issues_evaluateApp (by simpa [App.operands] using hu)
  | ext op arg width ih =>
    exact (ih he).bind fun k u _ hu => issues_evaluateApp (by simpa [App.operands] using hu)
  | binary op left right ihl ihr =>
    refine (ihl he.1).bind fun k u hk hu => ?_
    refine (ihr (he.2.imp fun _ hv => hv.mono hk)).bind fun l w hl hw => ?_
    exact issues_evaluateApp (by simpa [App.operands] using ⟨hu.mono hl, hw⟩)
  | select cond onTrue onFalse ihc iht ihf =>
    refine (ihc he.1).bind fun k u hk hu => ?_
    refine (iht (he.2.1.imp fun _ hv => hv.mono hk)).bind fun l w hl hw => ?_
    refine (ihf (he.2.2.imp fun _ hv => hv.mono (Nat.le_trans hk hl))).bind fun j x hj hx => ?_
    exact issues_evaluateApp
      (by simpa [App.operands] using ⟨hu.mono (Nat.le_trans hl hj), hw.mono hj, hx⟩)

/-- The check of an address takes no number. -/
theorem safe_checkAddress (m : Machine) (op : String) (addr : Value) :
    Safe n (checkAddress m op addr) :=
  .of_preserves fun _ _ => preserves_checkAddress m op addr

/-- A load returns a literal, or a name. -/
theorem issues_load (m : Machine) (img : Image) {addr : Value} (haddr : addr.Below n)
    (bytes : Nat) : Issues n (load m img addr bytes) fun k v => v.Below k := by
  refine (safe_checkAddress m _ addr).bind fun k _ hk _ => ?_
  split
  · split
    · -- What is read ahead of time is a literal.
      rename_i v hconstant
      obtain ⟨a, -, hread⟩ := Option.bind_eq_some_iff.1 hconstant
      obtain ⟨w, -, rfl⟩ := Option.map_eq_some_iff.1 hread
      exact .pure fun l _ => Value.below_of_constant rfl l
    · exact issues_define rfl _ (List.forall_mem_singleton.2 (haddr.mono hk))
  · exact .fail _

/-- A store assigns nothing. -/
theorem safe_store (m : Machine) (addr value : Value) : Safe n (store m addr value) := by
  refine (safe_checkAddress m _ addr).bind fun k _ _ _ => ?_
  split
  · exact .fail _
  · exact safe_emit rfl

/-- The exit mentions numbers that have been taken, if the registers do. -/
theorem safe_close {exit : RegFile → Exit}
    (hexit : ∀ k regs, n ≤ k → regs.Below k → ∀ v ∈ (exit regs).values, v.Below k) :
    Safe n (close exit) := by
  refine .of_preserves fun k hk => preserves_close
    (fun b hb => ⟨⟨fun _ h => (by cases h), hb.1.finished⟩, hb.2⟩)
    fun b blk l hblk hl hb => ⟨⟨fun _ h => (by cases h), ?_⟩, hb.2⟩
  have hopen := hb.1.current blk hblk
  rw [hl]
  refine List.forall_mem_append.2 ⟨hb.1.finished, List.forall_mem_singleton.2 ⟨hopen.stmts, ?_⟩⟩
  exact hexit _ blk.regs (Nat.le_trans hk hb.2) hopen.regs

/-- The registers stay as they are when the block goes on at its
instruction pointer. -/
theorem safe_close_fetch : Safe n (close .fetch) := safe_close fun _ _ _ hregs => hregs

/-- So they do when decoding has failed. -/
theorem safe_close_failed (addr : Word) (reason : String) :
    Safe n (close (.failed · addr reason)) :=
  safe_close fun _ _ _ hregs => hregs

/-- The check of a condition takes no number. -/
theorem safe_checkCondition (cond : Value) : Safe n (checkCondition cond) :=
  .of_preserves fun _ _ => preserves_checkCondition cond

/-- The registers that both sides start from have been known before. -/
theorem issues_split {cond : Value} (hcond : cond.Below n) :
    Issues n (split cond) fun k (out : BlockIndex × BlockIndex × RegFile) => out.2.2.Below k := by
  have halloc (k : Nat) : Safe k allocIndex := fun _ hb _ =>
    ⟨⟨hb.current, hb.finished⟩, Nat.le_refl _, fun _ _ => trivial⟩
  refine issues_openBlock_bind fun k blk hk hblk => ?_
  refine (halloc k).bind fun l _ hl _ => (halloc l).bind fun j _ hj _ => ?_
  have hle := Nat.le_trans hl hj
  have hclose (t f : BlockIndex) : Safe j (close fun _ => .branch cond t f) := by
    refine safe_close fun m _ hm _ => List.forall_mem_singleton.2 (hcond.mono ?_)
    exact Nat.le_trans hk (Nat.le_trans hle hm)
  refine (hclose _ _).bind fun i _ hi _ => .pure fun h hh => hblk.regs.mono ?_
  exact Nat.le_trans hle (Nat.le_trans hi hh)

/-- A new block starts without statements, from registers that are known.
-/
theorem safe_enter (index : BlockIndex) {regs : RegFile} (hregs : regs.Below n) :
    Safe n (enter index regs) := by
  intro b hb hn
  refine ⟨⟨fun blk hblk => ?_, hb.finished⟩, Nat.le_refl _, fun _ _ => trivial⟩
  cases hblk
  exact ⟨fun _ h => absurd h List.not_mem_nil, hregs.mono hn, fun _ h => absurd h List.not_mem_nil⟩

/-- Closing with a fetch, or nothing. -/
theorem safe_closeIfOpen : Safe n closeIfOpen :=
  .of_preserves fun _ hk => preserves_closeIfOpen (safe_close_fetch.preserves hk)

/-- Going back does not give numbers back, so what the checkpoint mentions
is still known. -/
theorem safe_rollback {c : Checkpoint} (hc : ∀ blk, c.current = some blk → blk.Descends n) :
    Safe n (rollback c) := by
  refine .of_preserves fun k hk => preserves_rollback fun b hb => ⟨hb.1.rollback ?_, hb.2⟩
  exact fun blk hblk => (hc blk hblk).mono (Nat.le_trans hk hb.2)

end Build

end FlowRecovery
