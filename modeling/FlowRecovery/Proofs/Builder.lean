import FlowRecovery.Recipe.Queue
import Mathlib.Logic.Relation

/-!
# `FlowRecovery.Proofs.Builder`: what the operations of construction do

Construction runs in a monad of errors over state. This file opens it
once, so that later proofs need not. There is one lemma for each
operation, `..._eq_ok_iff`, which says when it succeeds and what the
state is then.

The other half holds whether or not an operation succeeds. The ledger
changes in two ways only: it hands out the next number, or it takes a
finished block. `Ledger.Reaches` is any sequence of these, and every
operation of `Build` moves along it (`Build.Grows`). It follows that
finished blocks are never lost, and that two blocks finished since some
point have two different numbers (`Ledger.Reaches.finished_eq`).
-/

set_option autoImplicit false

namespace FlowRecovery

/-! ### Errors over state -/

section Monad

variable {ε σ α β : Type}

/-- Sequencing spelled out: the second part starts from the state that
the first one left, unless the first one failed. -/
theorem bind_run (x : ExceptT ε (StateM σ) α) (f : α → ExceptT ε (StateM σ) β) (s : σ) :
    (x >>= f) s = ExceptT.bindCont f (x s).1 (x s).2 := rfl

/-- A sequence succeeds exactly if both of its parts do, the second one
from the state that the first one left. Every `..._eq_ok_iff` below peels
off one part with it. -/
theorem bind_eq_ok_iff {x : ExceptT ε (StateM σ) α} {f : α → ExceptT ε (StateM σ) β} {s s' : σ}
    {b : β} :
    (x >>= f) s = (.ok b, s') ↔ ∃ a t, x s = (.ok a, t) ∧ f a t = (.ok b, s') := by
  rw [bind_run]
  cases hx : x s with
  | mk result t =>
    cases result with
    | error e =>
      constructor
      · intro h
        cases h
      · rintro ⟨_, _, h, _⟩
        cases h
    | ok a =>
      constructor
      · intro h
        exact ⟨a, t, rfl, h⟩
      · rintro ⟨_, _, h, hf⟩
        cases h
        exact hf

/-- A sequence fails in its first part or in its second. -/
theorem bind_eq_error_iff {x : ExceptT ε (StateM σ) α} {f : α → ExceptT ε (StateM σ) β}
    {s s' : σ} {e : ε} :
    (x >>= f) s = (.error e, s') ↔
      x s = (.error e, s') ∨ ∃ a t, x s = (.ok a, t) ∧ f a t = (.error e, s') := by
  rw [bind_run]
  cases hx : x s with
  | mk result t =>
    cases result with
    | error e' =>
      constructor
      · intro h
        cases h
        exact Or.inl rfl
      · rintro (h | ⟨_, _, h, _⟩)
        · cases h
          rfl
        · cases h
    | ok a =>
      constructor
      · intro h
        exact Or.inr ⟨a, t, rfl, h⟩
      · rintro (h | ⟨_, _, h, hf⟩)
        · cases h
        · cases h
          exact hf

/-- Once the first part is known to succeed, only the second one is left.
This rewrites runs that may still fail. -/
theorem bind_apply_of_ok {x : ExceptT ε (StateM σ) α} {f : α → ExceptT ε (StateM σ) β} {s t : σ}
    {a : α} (h : x s = (.ok a, t)) : (x >>= f) s = f a t := by
  rw [bind_run, h]
  rfl

/-- Nothing happens, and nothing can go wrong. -/
theorem pure_eq_ok_iff {a a' : α} {s s' : σ} :
    (pure a : ExceptT ε (StateM σ) α) s = (.ok a', s') ↔ a' = a ∧ s' = s := by
  show (Except.ok a, s) = (Except.ok a', s') ↔ _
  rw [Prod.mk.injEq, Except.ok.injEq, eq_comm, @eq_comm _ s]

/-- A function applied to the result changes neither success nor the state.
-/
theorem map_eq_ok_iff {x : ExceptT ε (StateM σ) α} {f : α → β} {s s' : σ} {b : β} :
    (f <$> x) s = (.ok b, s') ↔ ∃ a, x s = (.ok a, s') ∧ b = f a := by
  rw [map_eq_pure_bind, bind_eq_ok_iff]
  simp only [pure_eq_ok_iff]
  constructor
  · rintro ⟨a, t, hx, hb, ht⟩
    exact ⟨a, ht ▸ hx, hb⟩
  · rintro ⟨a, hx, hb⟩
    exact ⟨a, s', hx, hb, rfl⟩

/-- Sequencing after a part that only looks at the state. -/
theorem bind_eq_ok_iff_of_reads {x : ExceptT ε (StateM σ) α} {f : α → ExceptT ε (StateM σ) β}
    {s s' : σ} {b : β} {found : Option α}
    (hx : ∀ a t, x s = (.ok a, t) ↔ found = some a ∧ t = s) :
    (x >>= f) s = (.ok b, s') ↔ ∃ a, found = some a ∧ f a s = (.ok b, s') := by
  rw [bind_eq_ok_iff]
  constructor
  · rintro ⟨a, t, h, hf⟩
    obtain ⟨ha, rfl⟩ := (hx a t).1 h
    exact ⟨a, ha, hf⟩
  · rintro ⟨a, ha, hf⟩
    exact ⟨a, s, (hx a s).2 ⟨ha, rfl⟩, hf⟩

/-- Looking at the state first. -/
theorem get_bind_apply {f : σ → ExceptT ε (StateM σ) β} {s : σ} : (get >>= f) s = f s s := rfl

/-- Changing the state first. -/
theorem modify_bind_apply {g : σ → σ} {f : PUnit → ExceptT ε (StateM σ) β} {s : σ} :
    (modify g >>= f) s = f () (g s) := rfl

/-- A change of the state always succeeds. -/
theorem modify_eq_ok_iff {g : σ → σ} {s s' : σ} {u : PUnit} :
    (modify g : ExceptT ε (StateM σ) PUnit) s = (.ok u, s') ↔ s' = g s := by
  show (Except.ok PUnit.unit, g s) = (Except.ok u, s') ↔ _
  simp [eq_comm]

/-- The part keeps a property of states, whether or not it succeeds. -/
def Preserves (I : σ → Prop) (x : ExceptT ε (StateM σ) α) : Prop :=
  ∀ s, I s → I (x s).2

/-- Doing nothing keeps every property. -/
theorem Preserves.pure {I : σ → Prop} (a : α) :
    Preserves I (Pure.pure a : ExceptT ε (StateM σ) α) := fun _ h => h

/-- Two parts that keep a property keep it one after the other. If the
first one fails, its state is the final one. -/
theorem Preserves.bind {I : σ → Prop} {x : ExceptT ε (StateM σ) α}
    {f : α → ExceptT ε (StateM σ) β} (hx : Preserves I x) (hf : ∀ a, Preserves I (f a)) :
    Preserves I (x >>= f) := by
  intro s hs
  have ht := hx s hs
  rw [bind_run]
  cases hxs : x s with
  | mk result t =>
    rw [hxs] at ht
    -- The state that an error leaves behind counts too.
    cases result with
    | error e => exact ht
    | ok a => exact hf a t ht

/-- A loop keeps what each of its rounds keeps. Induction on the list. -/
theorem Preserves.forM {I : σ → Prop} {xs : List α} {f : α → ExceptT ε (StateM σ) PUnit}
    (hf : ∀ x ∈ xs, Preserves I (f x)) : Preserves I (xs.forM f) := by
  induction xs with
  | nil => exact .pure ()
  | cons x xs ih =>
    obtain ⟨hx, hxs⟩ := List.forall_mem_cons.1 hf
    exact hx.bind fun _ => ih hxs

end Monad

/-- What is found under a key stands in the list under it. -/
theorem mem_of_lookup_eq_some {α β : Type} [BEq α] [LawfulBEq α] {entries : List (α × β)} {k : α}
    {v : β} (h : entries.lookup k = some v) : (k, v) ∈ entries := by
  obtain ⟨before, after, rfl, -⟩ := List.lookup_eq_some_iff.1 h
  simp

/-! ### Operations that succeed -/

namespace Build

variable {b b' : Builder}

/-- A violation is never a success. -/
theorem violate_ne_ok {α : Type} {v : Violation} {a : α} : violate v b ≠ (.ok a, b') := by
  intro h
  cases h

/-- A check that may be refused, and what comes after it. -/
theorem check_bind_eq_ok_iff {α β : Type} {r : Except Violation α} {f : α → Build β} {c : β} :
    (check r >>= f) b = (.ok c, b') ↔ ∃ a, r = .ok a ∧ f a b = (.ok c, b') := by
  cases r with
  | error v =>
    constructor
    · intro h
      cases h
    · rintro ⟨_, h, _⟩
      cases h
  | ok a =>
    constructor
    · intro h
      exact ⟨a, rfl, h⟩
    · rintro ⟨_, ha, h⟩
      cases ha
      exact h

/-- Without an open block nothing that needs one can start, and the state
stays as it was. -/
theorem openBlock_bind_of_closed {α : Type} {f : OpenBlock → Build α} (h : b.current = none) :
    (openBlock >>= f) b = (.error (.violation .alreadyTerminated), b) := by
  rw [openBlock, bind_assoc, get_bind_apply, h]
  rfl

/-- With an open block the work goes on with it. -/
theorem openBlock_bind_of_open {α : Type} {f : OpenBlock → Build α} {blk : OpenBlock}
    (h : b.current = some blk) : (openBlock >>= f) b = f blk b := by
  rw [openBlock, bind_assoc, get_bind_apply, h]
  rfl

/-- What needs an open block succeeds only if there is one. -/
theorem openBlock_bind_eq_ok_iff {β : Type} {f : OpenBlock → Build β} {c : β} :
    (openBlock >>= f) b = (.ok c, b') ↔ ∃ blk, b.current = some blk ∧ f blk b = (.ok c, b') := by
  cases hblk : b.current with
  | none =>
    rw [openBlock_bind_of_closed hblk]
    constructor
    · intro h
      cases h
    · rintro ⟨_, h, _⟩
      cases h
  | some blk =>
    rw [openBlock_bind_of_open hblk]
    constructor
    · intro h
      exact ⟨blk, rfl, h⟩
    · rintro ⟨_, hblk, h⟩
      cases hblk
      exact h

/-- Reading a register succeeds if it is held, and changes nothing. -/
theorem getRegister_eq_ok_iff {r : Reg} {v : Value} :
    getRegister r b = (.ok v, b') ↔
      ∃ blk, b.current = some blk ∧ blk.regs.get? r = some v ∧ b' = b := by
  rw [getRegister, openBlock_bind_eq_ok_iff]
  refine exists_congr fun blk => and_congr_right fun _ => ?_
  cases blk.regs.get? r with
  | none => simp [violate_ne_ok]
  | some held => rw [pure_eq_ok_iff, Option.some.injEq, @eq_comm _ held]

/-- The register that always reads as zero keeps what it holds. -/
theorem setRegister_eq_ok_iff {m : Machine} {r : Reg} {v : Value} {u : Unit} :
    setRegister m r v b = (.ok u, b') ↔
      ∃ blk, b.current = some blk ∧
        (m.zero = some r ∧ b' = b ∨
          m.zero ≠ some r ∧ ∃ regs, blk.regs.set r v = .ok regs ∧
            b' = { b with current := some { blk with regs } }) := by
  rw [setRegister, openBlock_bind_eq_ok_iff]
  refine exists_congr fun blk => and_congr_right fun _ => ?_
  by_cases hz : m.zero = some r
  -- Writes to the zero register are dropped, without a look at the type.
  · simp [hz, pure_eq_ok_iff]
  · simp [hz, check_bind_eq_ok_iff, putBlock, modify_eq_ok_iff]

/-- A statement goes to the end of the open block. -/
theorem emit_eq_ok_iff {s : Stmt} {u : Unit} :
    emit s b = (.ok u, b') ↔
      ∃ blk, b.current = some blk ∧
        b' = { b with current := some { blk with stmts := blk.stmts ++ [s] } } := by
  simp only [emit, openBlock_bind_eq_ok_iff, putBlock, modify_eq_ok_iff]

/-- Is the result of this right-hand side remembered? -/
def remembers (rhs : Rhs) (memoize : Bool) : Bool :=
  memoize && !rhs.operands.any Value.isClobbered

/-- A name is used again, or the next number is taken for a new one. -/
theorem define_eq_ok_iff {rhs : Rhs} {ty : Ty} {memoize : Bool} {v : Value} :
    define rhs ty memoize b = (.ok v, b') ↔
      ∃ blk, b.current = some blk ∧
        (remembers rhs memoize = true ∧ blk.memo.lookup rhs = some v ∧ b' = b ∨
          (remembers rhs memoize = true → blk.memo.lookup rhs = none) ∧
            v = .assign b.issued ty ∧
            b' = { b with
              issued := b.issued + 1
              current := some { blk with
                stmts := blk.stmts ++ [.assign b.issued ty rhs]
                memo := if remembers rhs memoize then (rhs, .assign b.issued ty) :: blk.memo
                  else blk.memo } }) := by
  rw [define, openBlock_bind_eq_ok_iff]
  refine exists_congr fun blk => and_congr_right fun _ => ?_
  -- Only a result that is remembered can be used again.
  rw [← remembers]
  cases remembers rhs memoize with
  -- Nothing is looked up, so a new number is taken.
  | false =>
    simp only [Bool.false_eq_true, if_false, get_bind_apply, modify_bind_apply, putBlock,
      pure_eq_ok_iff, false_and, false_or, false_implies, true_and]
  | true =>
    -- The table decides between an old name and a new one.
    cases blk.memo.lookup rhs with
    | none =>
      simp only [if_true, get_bind_apply, modify_bind_apply, putBlock, pure_eq_ok_iff, reduceCtorEq,
        false_and, and_false, false_or, true_and, implies_true]
    | some w => simp [pure_eq_ok_iff, @eq_comm _ v]

/-- An application that is well typed is folded to a value, or it gets a
name. -/
theorem evaluateApp_eq_ok_iff {app : App} {v : Value} :
    evaluateApp app b = (.ok v, b') ↔
      ∃ ty, app.resultType = .ok ty ∧
        (app.fold = some v ∧ b' = b ∨
          app.fold = none ∧ define (.app app) ty true b = (.ok v, b')) := by
  rw [evaluateApp, check_bind_eq_ok_iff]
  refine exists_congr fun ty => and_congr_right fun _ => ?_
  cases app.fold with
  | none => simp
  | some w => simp [pure_eq_ok_iff, @eq_comm _ v]

/-- An access goes on only if its address has the type of addresses. -/
theorem checkAddress_bind_eq_ok_iff {α : Type} {m : Machine} {op : String} {addr : Value}
    {f : Unit → Build α} {a : α} :
    (checkAddress m op addr >>= f) b = (.ok a, b') ↔
      addr.ty = m.addrTy ∧ f () b = (.ok a, b') := by
  unfold checkAddress
  by_cases h : addr.ty = m.addrTy
  · simp [h]
  · simp only [h, if_false, false_and, iff_false]
    intro hf
    cases hf

/-- A load is a constant of read-only memory, or gets a name. -/
theorem load_eq_ok_iff {m : Machine} {img : Image} {addr v : Value} {bytes : Nat} :
    load m img addr bytes b = (.ok v, b') ↔
      addr.ty = m.addrTy ∧ isAccessSize bytes = true ∧
        (constantAt? img addr bytes = some v ∧ b' = b ∨
          constantAt? img addr bytes = none ∧
            define (.load addr bytes) (.bv (bytes * 8)) false b = (.ok v, b')) := by
  rw [load, checkAddress_bind_eq_ok_iff]
  refine and_congr_right fun _ => ?_
  cases isAccessSize bytes with
  | false => simp [violate_ne_ok]
  | true =>
    cases constantAt? img addr bytes with
    | none => simp
    | some w => simp [pure_eq_ok_iff, @eq_comm _ v]

/-- A store needs an address and a value that is not a truth value; then it
is a statement like any other. -/
theorem store_eq_ok_iff {m : Machine} {addr value : Value} {u : Unit} :
    store m addr value b = (.ok u, b') ↔
      addr.ty = m.addrTy ∧ value.ty ≠ .bool ∧ emit (.store addr value) b = (.ok u, b') := by
  rw [store, checkAddress_bind_eq_ok_iff]
  refine and_congr_right fun _ => ?_
  by_cases h : value.ty = .bool
  · simp [h, violate_ne_ok]
  · simp [h]

/-- The block is closed whether or not the ledger takes it. -/
theorem close_of_open {exit : RegFile → Exit} {blk : OpenBlock} (h : b.current = some blk) :
    close exit b =
      match b.ledger.push ⟨blk.index, blk.addr, blk.stmts, exit blk.regs⟩ with
      | .ok l => (.ok blk.index, { b with ledger := l, current := none })
      | .error v => (.error (.violation v), { b with current := none }) := by
  rw [close, openBlock_bind_of_open h, modify_bind_apply, get_bind_apply]
  cases b.ledger.push ⟨blk.index, blk.addr, blk.stmts, exit blk.regs⟩ with
  | error v => rfl
  | ok l => rfl

/-- An attempt turns failure into a result, and the state stays as the
failed part left it. -/
theorem attempt_bind_apply {α β : Type} (x : Build α) (f : Except BuildError α → Build β)
    (b : Builder) : (attempt x >>= f) b = f (x b).1 (x b).2 := rfl

/-- A block that is closed goes to the ledger. -/
theorem close_eq_ok_iff {exit : RegFile → Exit} {i : BlockIndex} :
    close exit b = (.ok i, b') ↔
      ∃ blk, b.current = some blk ∧ i = blk.index ∧
        ∃ l, b.ledger.push ⟨blk.index, blk.addr, blk.stmts, exit blk.regs⟩ = .ok l ∧
          b' = { b with ledger := l, current := none } := by
  rw [close, openBlock_bind_eq_ok_iff]
  refine exists_congr fun blk => and_congr_right fun _ => ?_
  rw [modify_bind_apply, get_bind_apply, check_bind_eq_ok_iff]
  simp only [modify_bind_apply, pure_eq_ok_iff]
  constructor
  · rintro ⟨l, hl, hi, hb⟩
    exact ⟨hi, l, hl, hb⟩
  · rintro ⟨hi, l, hl, hb⟩
    exact ⟨l, hl, hi, hb⟩

/-- The condition of a branch has to be a truth value. -/
theorem checkCondition_eq_ok_iff {cond : Value} {u : Unit} :
    checkCondition cond b = (.ok u, b') ↔ cond.ty = .bool ∧ b' = b := by
  unfold checkCondition
  by_cases h : cond.ty = .bool
  · simp [h, pure_eq_ok_iff]
  · simp [h, violate_ne_ok]

/-- A split takes two numbers and closes the block with a branch to
them. -/
theorem split_eq_ok_iff {cond : Value} {t f : BlockIndex} {regs : RegFile} :
    split cond b = (.ok (t, f, regs), b') ↔
      ∃ blk, b.current = some blk ∧
        t = b.ledger.next ∧ f = b.ledger.next + 1 ∧ regs = blk.regs ∧
        ∃ l, { b.ledger with next := b.ledger.next + 2 }.push
            ⟨blk.index, blk.addr, blk.stmts, .branch cond t f⟩ = .ok l ∧
          b' = { b with ledger := l, current := none } := by
  rw [split, openBlock_bind_eq_ok_iff]
  refine exists_congr fun blk => and_congr_right fun hblk => ?_
  -- Two numbers are taken, and then the block is closed as usual.
  show (close (fun _ => .branch cond b.ledger.next (b.ledger.next + 1)) >>= fun _ =>
      pure (b.ledger.next, b.ledger.next + 1, blk.regs))
    { b with ledger := { b.ledger with next := b.ledger.next + 2 } } = _ ↔ _
  simp only [bind_eq_ok_iff, close_eq_ok_iff, pure_eq_ok_iff, hblk, Option.some.injEq,
    Prod.mk.injEq]
  constructor
  · rintro ⟨_, _, ⟨_, rfl, rfl, l, hl, rfl⟩, ⟨rfl, rfl, rfl⟩, rfl⟩
    exact ⟨rfl, rfl, rfl, l, hl, rfl⟩
  · rintro ⟨rfl, rfl, rfl, l, hl, rfl⟩
    exact ⟨_, _, ⟨_, rfl, rfl, l, hl, rfl⟩, ⟨rfl, rfl, rfl⟩, rfl⟩

/-- Only an open block can be split. -/
theorem split_isOpen {cond : Value} {t f : BlockIndex} {regs : RegFile}
    (h : split cond b = (.ok (t, f, regs), b')) : b.current ≠ none := by
  obtain ⟨blk, hblk, -⟩ := split_eq_ok_iff.1 h
  simp [hblk]

/-- Closing what may be closed already: either there is nothing to do, or
the block ends with a fetch. -/
theorem closeIfOpen_eq_ok_iff {u : Unit} :
    closeIfOpen b = (.ok u, b') ↔
      b.current = none ∧ b' = b ∨ ∃ i, close .fetch b = (.ok i, b') := by
  rw [closeIfOpen, get_bind_apply, Builder.isOpen]
  cases hc : b.current with
  | none => simp [pure_eq_ok_iff, close_eq_ok_iff, hc]
  | some blk => simp [map_eq_ok_iff]

/-- After it there is no open block. -/
theorem closeIfOpen_current {u : Unit} (h : closeIfOpen b = (.ok u, b')) : b'.current = none := by
  cases closeIfOpen_eq_ok_iff.1 h with
  | inl hclosed =>
    rw [hclosed.2]
    exact hclosed.1
  | inr hopen =>
    obtain ⟨i, hclose⟩ := hopen
    obtain ⟨_, -, -, _, -, rfl⟩ := close_eq_ok_iff.1 hclose
    rfl

/-- Going back, spelled out: it is refused if blocks are missing that were
there at the checkpoint. -/
theorem rollback_apply (c : Checkpoint) (b : Builder) :
    rollback c b =
      if c.finished ≤ b.ledger.finished.length then (.ok (), b.rollback c)
      else (.error (.violation (.lostBlocks c.finished b.ledger.finished.length)), b) := by
  rw [rollback, get_bind_apply]
  split <;> rfl

/-- So it succeeds exactly if no finished block has been lost since. -/
theorem rollback_eq_ok_iff {c : Checkpoint} {u : Unit} :
    rollback c b = (.ok u, b') ↔
      c.finished ≤ b.ledger.finished.length ∧ b' = b.rollback c := by
  rw [rollback_apply]
  split
  · rename_i hle
    constructor
    · intro h
      cases h
      exact ⟨hle, rfl⟩
    · rintro ⟨-, rfl⟩
      rfl
  · rename_i hlost
    constructor
    · intro h
      cases h
    · rintro ⟨hle, -⟩
      exact absurd hle hlost

end Build

/-! ### Properties that operations keep -/

section Keeping

variable {I : Builder → Prop}

/-- What needs an open block keeps a property if it does so whenever there
is one. -/
theorem preserves_openBlock_bind {α : Type} {f : OpenBlock → Build α}
    (hf : ∀ (b : Builder) blk, b.current = some blk → I b → I (f blk b).2) :
    Preserves I (Build.openBlock >>= f) := by
  intro b hb
  cases hblk : b.current with
  | none =>
    rw [Build.openBlock_bind_of_closed hblk]
    exact hb
  | some blk =>
    rw [Build.openBlock_bind_of_open hblk]
    exact hf b blk hblk hb

/-- Checking a condition changes nothing. -/
theorem preserves_checkCondition (cond : Value) : Preserves I (Build.checkCondition cond) := by
  unfold Build.checkCondition
  split <;> exact fun _ hb => hb

/-- A block that is closed goes behind the finished ones, unless the ledger
refuses it. -/
theorem preserves_close {exit : RegFile → Exit}
    (hrefused : ∀ b : Builder, I b → I { b with current := none })
    (htaken : ∀ (b : Builder) blk (l : Ledger), b.current = some blk →
      l.finished = b.ledger.finished ++ [⟨blk.index, blk.addr, blk.stmts, exit blk.regs⟩] → I b →
        I { b with ledger := l, current := none }) :
    Preserves I (Build.close exit) := by
  intro b hb
  cases hblk : b.current with
  | none =>
    rw [Build.close, Build.openBlock_bind_of_closed hblk]
    exact hb
  | some blk =>
    rw [Build.close_of_open hblk]
    cases hpush : b.ledger.push ⟨blk.index, blk.addr, blk.stmts, exit blk.regs⟩ with
    | error v => exact hrefused b hb
    | ok l =>
      obtain ⟨-, rfl⟩ := Ledger.push_eq_ok_iff.1 hpush
      exact htaken b blk _ hblk rfl hb

/-- A split takes two numbers and closes the block with a branch, so it
keeps what these keep. -/
theorem preserves_split {cond : Value} (halloc : Preserves I Build.allocIndex)
    (hclose : ∀ onTrue onFalse, Preserves I (Build.close fun _ => .branch cond onTrue onFalse)) :
    Preserves I (Build.split cond) :=
  preserves_openBlock_bind fun b _ _ =>
    (halloc.bind fun _ => halloc.bind fun _ => (hclose _ _).bind fun _ => .pure _) b

/-- The block is closed with a fetch, or nothing happens. -/
theorem preserves_closeIfOpen (hclose : Preserves I (Build.close .fetch)) :
    Preserves I Build.closeIfOpen := by
  intro b hb
  rw [Build.closeIfOpen, get_bind_apply]
  split
  · exact hclose.bind (fun _ => .pure ()) b hb
  · exact hb

/-- A checkpoint whose blocks are gone is refused, and nothing happens. -/
theorem preserves_rollback {c : Checkpoint} (hback : ∀ b, I b → I (b.rollback c)) :
    Preserves I (Build.rollback c) := by
  intro b hb
  rw [Build.rollback_apply]
  split
  · exact hback b hb
  · exact hb

end Keeping

/-! ### Expressions -/

/-- Every leaf has the property. -/
def Expr.All {α : Type} (p : α → Prop) : Expr α → Prop
  | .leaf a => p a
  | .unary _ arg => arg.All p
  | .binary _ left right => left.All p ∧ right.All p
  | .ext _ arg _ => arg.All p
  | .select cond onTrue onFalse => cond.All p ∧ onTrue.All p ∧ onFalse.All p

/-- A weaker property holds of the leaves as well. -/
theorem Expr.All.imp {α : Type} {p q : α → Prop} (hpq : ∀ a, p a → q a) {e : Expr α}
    (h : e.All p) : e.All q := by
  induction e with
  | leaf a => exact hpq a h
  | unary op arg ih => exact ih h
  | ext op arg width ih => exact ih h
  | binary op left right ihl ihr => exact ⟨ihl h.1, ihr h.2⟩
  | select cond onTrue onFalse ihc iht ihf => exact ⟨ihc h.1, iht h.2.1, ihf h.2.2⟩

/-- The second tree is the first one with its leaves replaced. -/
inductive Expr.Resolves {α β : Type} (f : α → Option β) : Expr α → Expr β → Prop where
  | leaf {a : α} {b : β} (h : f a = some b) : Resolves f (.leaf a) (.leaf b)
  | unary (op : UnaryOp) {arg : Expr α} {arg' : Expr β} (h : Resolves f arg arg') :
      Resolves f (.unary op arg) (.unary op arg')
  | binary (op : BinaryOp) {left right : Expr α} {left' right' : Expr β}
      (hleft : Resolves f left left') (hright : Resolves f right right') :
      Resolves f (.binary op left right) (.binary op left' right')
  | ext (op : ExtOp) {arg : Expr α} {arg' : Expr β} (width : Nat) (h : Resolves f arg arg') :
      Resolves f (.ext op arg width) (.ext op arg' width)
  | select {cond onTrue onFalse : Expr α} {cond' onTrue' onFalse' : Expr β}
      (hcond : Resolves f cond cond') (htrue : Resolves f onTrue onTrue')
      (hfalse : Resolves f onFalse onFalse') :
      Resolves f (.select cond onTrue onFalse) (.select cond' onTrue' onFalse')

/-- Resolving the leaves of a tree gives the same tree over their values.
Induction on the tree, one rule for each constructor. -/
theorem Expr.resolves_of_resolve {α β : Type} {f : α → Option β} {e : Expr α} {e' : Expr β}
    (h : e.resolve f = some e') : e.Resolves f e' := by
  induction e generalizing e' with
  | leaf a =>
    obtain ⟨b, hb, rfl⟩ := Option.map_eq_some_iff.1 h
    exact .leaf hb
  | unary op arg ih =>
    obtain ⟨arg', harg, rfl⟩ := Option.map_eq_some_iff.1 h
    exact .unary op (ih harg)
  | ext op arg width ih =>
    obtain ⟨arg', harg, rfl⟩ := Option.map_eq_some_iff.1 h
    exact .ext op width (ih harg)
  | binary op left right ihl ihr =>
    obtain ⟨left', hleft, h⟩ := Option.bind_eq_some_iff.1 h
    obtain ⟨right', hright, h⟩ := Option.bind_eq_some_iff.1 h
    cases h
    exact .binary op (ihl hleft) (ihr hright)
  | select cond onTrue onFalse ihc iht ihf =>
    obtain ⟨cond', hcond, h⟩ := Option.bind_eq_some_iff.1 h
    obtain ⟨true', htrue, h⟩ := Option.bind_eq_some_iff.1 h
    obtain ⟨false', hfalse, h⟩ := Option.bind_eq_some_iff.1 h
    cases h
    exact .select (ihc hcond) (iht htrue) (ihf hfalse)

/-! ### The ledger only grows -/

namespace Ledger

/-- What can happen to a ledger during construction. -/
inductive Moves : Ledger → Ledger → Prop
  /-- The next number is handed out. -/
  | alloc (l : Ledger) : Moves l l.alloc.2
  /-- A finished block is taken. -/
  | push {l l' : Ledger} {b : Block} (h : l.push b = .ok l') : Moves l l'

/-- Any number of moves. -/
abbrev Reaches : Ledger → Ledger → Prop := Relation.ReflTransGen Moves

variable {l l' : Ledger}

/-- The blocks finished in between come after the earlier ones, and
their numbers are all different. -/
theorem Reaches.finished_eq (h : Reaches l l') :
    ∃ more, l'.finished = l.finished ++ more ∧ (more.map Block.index).Nodup ∧
      ∀ b ∈ more, b.index ∈ l'.emitted := by
  induction h with
  | refl => exact ⟨[], by simp⟩
  | tail _ hlast ih =>
    obtain ⟨more, hfinished, hnodup, hemitted⟩ := ih
    cases hlast with
    | alloc => exact ⟨more, hfinished, hnodup, hemitted⟩
    | @push _ b h =>
      obtain ⟨⟨-, hfresh, -⟩, rfl⟩ := push_eq_ok_iff.1 h
      -- The ledger refuses a number that was finished before, so `b` is new.
      refine ⟨more ++ [b], ?_, ?_, ?_⟩
      · rw [hfinished, List.append_assoc]
      · rw [List.map_append, List.nodup_append]
        refine ⟨hnodup, by simp, ?_⟩
        intro i hi j hj heq
        obtain ⟨c, hc, rfl⟩ := List.mem_map.1 hi
        have hcb : c.index = b.index := by simpa [← heq] using hj
        exact hfresh (hcb ▸ hemitted c hc)
      · intro c hc
        rcases List.mem_append.1 hc with hc | hc
        · exact List.mem_cons_of_mem _ (hemitted c hc)
        · rw [List.mem_singleton.1 hc]
          exact List.mem_cons_self

/-- No finished block gets lost. -/
theorem Reaches.length_le (h : Reaches l l') : l.finished.length ≤ l'.finished.length := by
  obtain ⟨more, hfinished, -, -⟩ := h.finished_eq
  rw [hfinished, List.length_append]
  exact Nat.le_add_right _ _

/-- Nor do those behind the first few of them change. -/
theorem Reaches.drop_subset (h : Reaches l l') (k : Nat) :
    l.finished.drop k ⊆ l'.finished.drop k := by
  obtain ⟨more, hfinished, -, -⟩ := h.finished_eq
  rw [hfinished, List.drop_append]
  exact List.subset_append_left _ _

end Ledger

/-- Numbers are only taken and blocks only added. -/
structure Builder.Grows (b b' : Builder) : Prop where
  issued_le : b.issued ≤ b'.issued
  reaches : b.ledger.Reaches b'.ledger

/-- Doing nothing adds nothing. -/
theorem Builder.Grows.refl (b : Builder) : b.Grows b := ⟨Nat.le_refl _, .refl⟩

/-- What two parts add, they add one after the other. -/
theorem Builder.Grows.trans {b₁ b₂ b₃ : Builder} (h : b₁.Grows b₂) (h' : b₂.Grows b₃) :
    b₁.Grows b₃ :=
  ⟨Nat.le_trans h.issued_le h'.issued_le, h.reaches.trans h'.reaches⟩

/-- The operation only adds, whether or not it succeeds. -/
def Build.Grows {α : Type} (x : Build α) : Prop :=
  ∀ b : Builder, b.Grows (x b).2

namespace Build.Grows

variable {α β : Type}

/-- Nothing is taken or added. -/
theorem pure (a : α) : Grows (Pure.pure a) := Builder.Grows.refl

/-- A violation leaves the state as it is. -/
theorem violate (v : Violation) : Grows (Build.violate v : Build α) := Builder.Grows.refl

/-- Two parts that only add do so one after the other. An error ends the
run where the first part left it. -/
theorem bind {x : Build α} {f : α → Build β} (hx : Grows x) (hf : ∀ a, Grows (f a)) :
    Grows (x >>= f) := by
  intro b
  have hb := hx b
  rw [bind_run]
  cases hxb : x b with
  | mk result t =>
    rw [hxb] at hb
    cases result with
    | error e => exact hb
    | ok a => exact hb.trans (hf a t)

/-- A check has no effect. -/
theorem check (r : Except Violation α) : Grows (Build.check r) := by
  cases r with
  | error v => exact violate v
  | ok a => exact pure a

/-- Nor has looking for the open block. -/
theorem openBlock : Grows Build.openBlock := by
  intro b
  rw [Build.openBlock, get_bind_apply]
  cases b.current with
  | none => exact violate _ b
  | some block => exact pure block b

/-- The open block is not in the ledger, so it may change freely. -/
theorem putBlock (blk : OpenBlock) : Grows (Build.putBlock blk) := fun _ => ⟨Nat.le_refl _, .refl⟩

/-- Registers are part of the open block. -/
theorem getRegister (r : Reg) : Grows (Build.getRegister r) := by
  refine openBlock.bind fun blk => ?_
  cases blk.regs.get? r with
  | none => exact violate _
  | some v => exact pure v

/-- So are the values that are written to them. -/
theorem setRegister (m : Machine) (r : Reg) (v : Value) : Grows (Build.setRegister m r v) := by
  refine openBlock.bind fun blk => ?_
  split
  · exact pure ()
  · exact (check _).bind fun _ => putBlock _

/-- So are its statements. -/
theorem emit (s : Stmt) : Grows (Build.emit s) := openBlock.bind fun _ => putBlock _

/-- A new name takes the next number of the builder; the ledger stays. -/
theorem define (rhs : Rhs) (ty : Ty) (memoize : Bool) : Grows (Build.define rhs ty memoize) := by
  refine openBlock.bind fun blk => ?_
  dsimp only
  split
  · exact pure _
  · exact fun b => ⟨Nat.le_succ b.issued, .refl⟩

/-- An application is folded, or named. -/
theorem evaluateApp (app : App) : Grows (Build.evaluateApp app) := by
  refine (check _).bind fun ty => ?_
  split
  · exact pure _
  · exact define _ _ _

/-- Evaluation adds what its applications add. Induction on the expression.
-/
theorem evaluate (e : Expr Value) : Grows (Build.evaluate e) := by
  induction e with
  | leaf v => exact pure v
  | unary op arg ih => exact ih.bind fun _ => evaluateApp _
  | ext op arg width ih => exact ih.bind fun _ => evaluateApp _
  | binary op left right ihl ihr => exact ihl.bind fun _ => ihr.bind fun _ => evaluateApp _
  | select cond onTrue onFalse ihc iht ihf =>
    exact ihc.bind fun _ => iht.bind fun _ => ihf.bind fun _ => evaluateApp _

/-- The check of an address has no effect. -/
theorem checkAddress (m : Machine) (op : String) (addr : Value) :
    Grows (Build.checkAddress m op addr) := by
  unfold Build.checkAddress
  split
  · exact pure ()
  · exact violate _

/-- A load is folded, or named. -/
theorem load (m : Machine) (img : Image) (addr : Value) (bytes : Nat) :
    Grows (Build.load m img addr bytes) := by
  refine (checkAddress m _ addr).bind fun _ => ?_
  split
  · split
    · exact pure _
    · exact define _ _ _
  · exact violate _

/-- A store is a statement. -/
theorem store (m : Machine) (addr value : Value) : Grows (Build.store m addr value) := by
  refine (checkAddress m _ addr).bind fun _ => ?_
  split
  · exact violate _
  · exact emit _

/-- This is the one move that hands out a number for a block. -/
theorem allocIndex : Grows Build.allocIndex := fun b => ⟨Nat.le_refl _, .single (.alloc b.ledger)⟩

/-- This is the one move that finishes a block. If the ledger refuses the
block, nothing has moved. -/
theorem close (exit : RegFile → Exit) : Grows (Build.close exit) := by
  refine openBlock.bind fun blk => ?_
  intro b
  -- The block is taken off first, so both answers of the ledger leave it closed.
  show b.Grows ((Build.check (b.ledger.push ⟨blk.index, blk.addr, blk.stmts, exit blk.regs⟩) >>=
    fun l => modify (fun b => { b with ledger := l }) >>= fun _ => Pure.pure blk.index)
      { b with current := none }).2
  cases hl : b.ledger.push ⟨blk.index, blk.addr, blk.stmts, exit blk.regs⟩ with
  | error v => exact ⟨Nat.le_refl _, .refl⟩
  | ok l => exact ⟨Nat.le_refl _, .single (.push hl)⟩

/-- The check of a condition has no effect. -/
theorem checkCondition (cond : Value) : Grows (Build.checkCondition cond) := by
  unfold Build.checkCondition
  split
  · exact pure ()
  · exact violate _

/-- A split makes both kinds of moves: two numbers, and the block that
ends. -/
theorem split (cond : Value) : Grows (Build.split cond) :=
  openBlock.bind fun _ => allocIndex.bind fun _ => allocIndex.bind fun _ =>
    (close _).bind fun _ => pure _

/-- A block that is begun is not in the ledger yet. -/
theorem enter (index : BlockIndex) (regs : RegFile) : Grows (Build.enter index regs) := fun _ =>
  ⟨Nat.le_refl _, .refl⟩

/-- A block is finished, or nothing happens. -/
theorem closeIfOpen : Grows Build.closeIfOpen := by
  intro b
  show b.Grows ((if b.isOpen then Build.close .fetch >>= fun _ => Pure.pure () else Pure.pure () :
    Build Unit) b).2
  split
  · exact (close _).bind (fun _ => pure ()) b
  · exact pure () b

end Build.Grows
end FlowRecovery
