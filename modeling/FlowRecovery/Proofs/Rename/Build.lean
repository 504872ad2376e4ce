import FlowRecovery.Proofs.Rename

/-!
# `FlowRecovery.Proofs.Rename.Build`: construction under other numbers

Two builders are alike if one is the other with its assignments renamed.
The same operation on both, with renamed arguments on the second, fails on
both in the same way or succeeds on both with a result and its renaming,
and leaves builders that are alike again. `Tracks` says this of a pair of
operations; it is closed under sequencing, so there is one lemma for each
operation of `Build` and none for their combinations.

The renaming has to keep step with the numbers that are handed out: from
`low` on it adds the distance between the two counters. It has to do so
only up to a `limit`, and then nothing is said about operations that count
further.

One part of the state is not compared. The ledger remembers the number
finished last to refuse blocks that come too late. After a rollback with
no finished block left it remembers none, although an earlier run may have
finished some. Both ledgers still take the same blocks
(`Ledger.Alike.push`), since all numbers of the present run, which are
those from `first` on, come after those of earlier runs.
-/

set_option autoImplicit false

namespace FlowRecovery

/-! ### Tracking -/

/-- What `x` does in one state, `y` does in any state that `S` relates to
it: the states afterwards are related too, and the results are the same
but for `g`. Only the runs of `x` that count up to `limit` matter. -/
structure Tracks {σ α β : Type} (S : σ → σ → Prop) (count : σ → Nat) (limit : Nat) (g : α → β)
    (x : ExceptT BuildError (StateM σ) α) (y : ExceptT BuildError (StateM σ) β) : Prop where
  counts : ∀ s, count s ≤ count (x s).2
  follows : ∀ s t, S s t → count (x s).2 ≤ limit →
    S (x s).2 (y t).2 ∧ (y t).1 = (x s).1.map g

namespace Tracks

variable {σ α β γ δ : Type} {S : σ → σ → Prop} {count : σ → Nat} {limit : Nat}

/-- Both sides have their result at once. -/
theorem pure (g : α → β) (a : α) : Tracks S count limit g (Pure.pure a) (Pure.pure (g a)) where
  counts _ := Nat.le_refl _
  follows _ _ h _ := ⟨h, rfl⟩

/-- Both sides fail alike. -/
theorem fail (g : α → β) (e : BuildError) : Tracks S count limit g (throw e) (throw e) where
  counts _ := Nat.le_refl _
  follows _ _ h _ := ⟨h, rfl⟩

/-- One part after the other. If the first one fails, it does on both
sides. -/
theorem bind {g : α → β} {g' : γ → δ} {x : ExceptT BuildError (StateM σ) α}
    {y : ExceptT BuildError (StateM σ) β} {k : α → ExceptT BuildError (StateM σ) γ}
    {l : β → ExceptT BuildError (StateM σ) δ} (hx : Tracks S count limit g x y)
    (hk : ∀ a, Tracks S count limit g' (k a) (l (g a))) :
    Tracks S count limit g' (x >>= k) (y >>= l) := by
  constructor
  · intro s
    have hs := hx.counts s
    rw [bind_run]
    cases hxs : x s with
    | mk result s' =>
      rw [hxs] at hs
      cases result with
      | error e => exact hs
      | ok a => exact Nat.le_trans hs ((hk a).counts s')
  · intro s t h
    have hfirst := hx.follows s t h
    rw [bind_run, bind_run]
    cases hxs : x s with
    | mk result s' =>
      cases hyt : y t with
      | mk result' t' =>
        rw [hxs, hyt] at hfirst
        cases result with
        | error e =>
          intro hle
          obtain ⟨hstate, hresult⟩ := hfirst hle
          simp only at hstate hresult
          rw [hresult]
          exact ⟨hstate, rfl⟩
        | ok a =>
          -- The second part only counts on, so the first kept to the limit.
          intro hle
          obtain ⟨hstate, hresult⟩ := hfirst (Nat.le_trans ((hk a).counts s') hle)
          simp only at hstate hresult
          rw [hresult]
          exact (hk a).follows s' t' hstate hle

/-- What is made of the results may differ by the renaming. -/
theorem map {g : α → β} {g' : γ → δ} {x : ExceptT BuildError (StateM σ) α}
    {y : ExceptT BuildError (StateM σ) β} {k : α → γ} {l : β → δ} (hx : Tracks S count limit g x y)
    (hk : ∀ a, l (g a) = g' (k a)) : Tracks S count limit g' (k <$> x) (l <$> y) := by
  rw [map_eq_pure_bind, map_eq_pure_bind]
  refine hx.bind fun a => ?_
  rw [hk a]
  exact pure g' (k a)

end Tracks

/-! ### States that are alike -/

/-- A renaming of assignments for a run that started with block `first`.
From `low` up to `limit` it adds `gap`. -/
structure Renumbering where
  name : AssignId → AssignId
  injective : Function.Injective name
  first : BlockIndex
  low : AssignId
  limit : AssignId
  gap : Nat
  name_eq : ∀ id, low ≤ id → id < limit → name id = id + gap

/-- Every number stays as it is. -/
def Renumbering.still : Renumbering where
  name := id
  injective := Function.injective_id
  first := 0
  low := 0
  limit := 0
  gap := 0
  name_eq _ _ _ := rfl

/-- The second builder is the first one with its assignments renamed, as
far as anyone can see: open block, finished blocks, block numbers and
instruction address. -/
structure Builder.Matches (f : AssignId → AssignId) (b c : Builder) : Prop where
  current : c.current = b.current.map (OpenBlock.rename f)
  finished : c.ledger.finished = b.ledger.finished.map (Block.rename f)
  next : c.ledger.next = b.ledger.next
  emitted : c.ledger.emitted = b.ledger.emitted
  instrAddr : c.instrAddr = b.instrAddr

/-- The ledger remembers the last of its finished blocks, or has none and
remembers at most one from before `first`. -/
def Ledger.RemembersLast (first : BlockIndex) (l : Ledger) : Prop :=
  l.last = l.finished.getLast?.map Block.index ∨
    l.finished = [] ∧ ∀ i, l.last = some i → i < first

/-- The ledgers hold the same blocks but for the renaming, and they
remember the last one. -/
structure Ledger.Alike (ρ : Renumbering) (l m : Ledger) : Prop where
  finished : m.finished = l.finished.map (Block.rename ρ.name)
  next : m.next = l.next
  emitted : m.emitted = l.emitted
  first_le : ρ.first ≤ l.next
  last : l.RemembersLast ρ.first
  last' : m.RemembersLast ρ.first

/-- The builders are the same but for the renaming, and the renaming
keeps step with their counters. -/
structure Builder.Alike (ρ : Renumbering) (b c : Builder) : Prop where
  ledger : b.ledger.Alike ρ c.ledger
  current : c.current = b.current.map (OpenBlock.rename ρ.name)
  first_le : ∀ blk ∈ b.current, ρ.first ≤ blk.index
  instrAddr : c.instrAddr = b.instrAddr
  low_le : ρ.low ≤ b.issued
  issued : c.issued = b.issued + ρ.gap

variable {ρ : Renumbering}

/-- Renaming what has been appended. -/
theorem OpenBlock.rename_append {f : AssignId → AssignId} (blk : OpenBlock) (s : Stmt)
    (memo : List (Rhs × Value)) :
    OpenBlock.rename f { blk with stmts := blk.stmts ++ [s], memo } =
      { blk.rename f with
        stmts := (blk.rename f).stmts ++ [s.rename f]
        memo := memo.map (Prod.map (Rhs.rename f) (Value.rename f)) } := by
  simp [OpenBlock.rename]

namespace Ledger

/-- For the blocks of the present run, only the last finished block that
is still there matters. -/
theorem RemembersLast.filter_eq {first : BlockIndex} {l : Ledger} (h : l.RemembersLast first)
    {i : BlockIndex} (hi : first ≤ i) :
    l.last.filter (i < ·) = (l.finished.getLast?.map Block.index).filter (i < ·) := by
  cases h with
  | inl hlast => rw [hlast]
  | inr hnone =>
    obtain ⟨hfinished, hbefore⟩ := hnone
    rw [hfinished]
    cases hl : l.last with
    | none => rfl
    | some j =>
      have hj : j ≤ i := Nat.le_trans (Nat.le_of_lt (hbefore j hl)) hi
      simp [hj]

namespace Alike

variable {l m : Ledger}

/-- The last finished blocks have the same number. -/
theorem getLast_index (h : l.Alike ρ m) :
    m.finished.getLast?.map Block.index = l.finished.getLast?.map Block.index := by
  rw [h.finished, List.getLast?_map, Option.map_map]
  rfl

/-- Both ledgers hand out the same number. -/
theorem alloc (h : l.Alike ρ m) : l.alloc.2.Alike ρ m.alloc.2 :=
  ⟨h.finished, congrArg (· + 1) h.next, h.emitted, Nat.le_succ_of_le h.first_le, h.last, h.last'⟩

/-- Both ledgers take a block of the present run, or both refuse it for
the same reason. -/
theorem push (h : l.Alike ρ m) (b : Block) (hb : ρ.first ≤ b.index) :
    (∃ l' m', l.push b = .ok l' ∧ m.push (b.rename ρ.name) = .ok m' ∧ l'.Alike ρ m') ∨
      ∃ v, l.push b = .error v ∧ m.push (b.rename ρ.name) = .error v := by
  have hindex : (b.rename ρ.name).index = b.index := rfl
  -- The numbers remembered as last may differ, but not as far as the order
  -- of blocks of this run is concerned.
  have hlate : m.last.filter (b.index < ·) = l.last.filter (b.index < ·) := by
    rw [h.last.filter_eq hb, h.last'.filter_eq hb, h.getLast_index]
  unfold Ledger.push
  rw [hindex, h.next, h.emitted, hlate]
  by_cases hnext : l.next ≤ b.index
  · rw [if_pos hnext, if_pos hnext]
    exact .inr ⟨_, rfl, rfl⟩
  rw [if_neg hnext, if_neg hnext]
  by_cases hemitted : l.emitted.contains b.index
  · rw [if_pos hemitted, if_pos hemitted]
    exact .inr ⟨_, rfl, rfl⟩
  rw [if_neg hemitted, if_neg hemitted]
  cases l.last.filter (b.index < ·) with
  | some last => exact .inr ⟨_, rfl, rfl⟩
  | none =>
    refine .inl ⟨_, _, rfl, rfl, ?_, rfl, rfl, h.first_le, .inl ?_, .inl ?_⟩
    · simp [h.finished]
    · simp
    · simp [hindex]

/-- Both ledgers can be cut back, and then remember the last block that is
left. -/
theorem truncate (h : l.Alike ρ m) (kept : Nat) {next : BlockIndex} (hnext : ρ.first ≤ next) :
    (l.truncate kept next).Alike ρ (m.truncate kept next) := by
  have hindex : Block.index ∘ Block.rename ρ.name = Block.index := rfl
  refine ⟨?_, rfl, ?_, hnext, .inl rfl, .inl rfl⟩
  · simp [Ledger.truncate, h.finished, List.map_take]
  · simp [Ledger.truncate, h.finished, h.emitted, ← List.map_drop, hindex]

end Alike

end Ledger

namespace Builder.Alike

variable {b c : Builder}

/-- Builders that are alike look alike. -/
theorem toMatches (h : b.Alike ρ c) : b.Matches ρ.name c :=
  ⟨h.current, h.ledger.finished, h.ledger.next, h.ledger.emitted, h.instrAddr⟩

/-- Both builders have an open block, or none has. -/
theorem current_cases (h : b.Alike ρ c) :
    b.current = none ∧ c.current = none ∨
      ∃ blk, b.current = some blk ∧ c.current = some (blk.rename ρ.name) ∧
        ρ.first ≤ blk.index := by
  have hcurrent := h.current
  cases hblk : b.current with
  | none =>
    rw [hblk] at hcurrent
    exact .inl ⟨rfl, hcurrent⟩
  | some blk =>
    rw [hblk] at hcurrent
    exact .inr ⟨blk, rfl, hcurrent, h.first_le blk hblk⟩

/-- The open block is replaced, and some numbers may be taken. -/
theorem update (h : b.Alike ρ c) (blk : OpenBlock) (hblk : ρ.first ≤ blk.index) {n : Nat}
    (hn : b.issued ≤ n) :
    Builder.Alike ρ { b with issued := n, current := some blk }
      { c with issued := n + ρ.gap, current := some (blk.rename ρ.name) } := by
  refine ⟨h.ledger, rfl, ?_, h.instrAddr, Nat.le_trans h.low_le hn, rfl⟩
  intro blk' hblk'
  cases hblk'
  exact hblk

/-- The open block is replaced, and no number is taken. -/
theorem putBlock (h : b.Alike ρ c) (blk : OpenBlock) (hblk : ρ.first ≤ blk.index) :
    Builder.Alike ρ { b with current := some blk }
      { c with current := some (blk.rename ρ.name) } := by
  have hupdate := h.update blk hblk (Nat.le_refl b.issued)
  rwa [← h.issued] at hupdate

/-- The open block is closed. -/
theorem closed (h : b.Alike ρ c) {l m : Ledger} (hlm : l.Alike ρ m) :
    Builder.Alike ρ { b with ledger := l, current := none }
      { c with ledger := m, current := none } :=
  ⟨hlm, rfl, fun _ hblk => (by cases hblk), h.instrAddr, h.low_le, h.issued⟩

/-- Both go back to a checkpoint and to its renaming. -/
theorem rollback (h : b.Alike ρ c) {cp : Checkpoint} (hnext : ρ.first ≤ cp.next)
    (hcurrent : ∀ blk ∈ cp.current, ρ.first ≤ blk.index) :
    (b.rollback cp).Alike ρ (c.rollback (cp.rename ρ.name)) :=
  ⟨h.ledger.truncate cp.finished hnext, rfl, hcurrent, rfl, h.low_le, h.issued⟩

end Builder.Alike

/-! ### The operations -/

/-- Tracking for operations of construction. -/
abbrev Build.Tracks (ρ : Renumbering) {α β : Type} (g : α → β) (x : Build α) (y : Build β) : Prop :=
  FlowRecovery.Tracks (Builder.Alike ρ) (fun b => b.issued) ρ.limit g x y

namespace Build.Tracks

variable {α β : Type} {g : α → β}

/-- A check with renamed results. -/
theorem check {r : Except Violation α} {r' : Except Violation β} (h : r' = r.map g) :
    Build.Tracks ρ g (Build.check r) (Build.check r') := by
  rw [h]
  cases r with
  | error v => exact .fail g _
  | ok a => exact .pure g a

/-- An operation that needs an open block. -/
theorem openBlock_bind {k : OpenBlock → Build α} {l : OpenBlock → Build β}
    (hgrows : (openBlock >>= k).Grows)
    (hk : ∀ b c blk, b.Alike ρ c → ρ.first ≤ blk.index → (k blk b).2.issued ≤ ρ.limit →
      (k blk b).2.Alike ρ (l (blk.rename ρ.name) c).2 ∧
        (l (blk.rename ρ.name) c).1 = (k blk b).1.map g) :
    Build.Tracks ρ g (openBlock >>= k) (openBlock >>= l) := by
  refine ⟨fun b => (hgrows b).issued_le, fun b c h hle => ?_⟩
  obtain ⟨hb, hc⟩ | ⟨blk, hb, hc, hfirst⟩ := h.current_cases
  · rw [openBlock_bind_of_closed hb, openBlock_bind_of_closed hc]
    exact ⟨h, rfl⟩
  · rw [openBlock_bind_of_open hb] at hle ⊢
    rw [openBlock_bind_of_open hc]
    exact hk b c blk h hfirst hle

/-- A register is read. -/
theorem getRegister (r : Reg) :
    Build.Tracks ρ (Value.rename ρ.name) (Build.getRegister r) (Build.getRegister r) := by
  refine openBlock_bind (.getRegister r) fun b c blk h _ _ => ?_
  have hget : (blk.rename ρ.name).regs.get? r = (blk.regs.get? r).map (Value.rename ρ.name) :=
    blk.regs.get?_rename r
  rw [hget]
  cases blk.regs.get? r with
  | none => exact ⟨h, rfl⟩
  | some v => exact ⟨h, rfl⟩

/-- A register is written, or the write is dropped or refused on both
sides. -/
theorem setRegister (m : Machine) (r : Reg) (v : Value) :
    Build.Tracks ρ id (Build.setRegister m r v) (Build.setRegister m r (v.rename ρ.name)) := by
  refine openBlock_bind (.setRegister m r v) fun b c blk h hfirst _ => ?_
  by_cases hz : m.zero = some r
  · rw [if_pos hz, if_pos hz]
    exact ⟨h, rfl⟩
  · rw [if_neg hz, if_neg hz]
    have hset : (blk.rename ρ.name).regs.set r (v.rename ρ.name) =
        (blk.regs.set r v).map (RegFile.rename ρ.name) := blk.regs.set_rename r v
    rw [hset]
    cases blk.regs.set r v with
    | error e => exact ⟨h, rfl⟩
    | ok regs => exact ⟨h.putBlock { blk with regs } hfirst, rfl⟩

/-- A statement is appended. -/
theorem emit (s : Stmt) : Build.Tracks ρ id (Build.emit s) (Build.emit (s.rename ρ.name)) := by
  refine openBlock_bind (.emit s) fun b c blk h hfirst _ => ⟨?_, rfl⟩
  have hput := h.putBlock { blk with stmts := blk.stmts ++ [s] } hfirst
  rw [OpenBlock.rename_append] at hput
  exact hput

/-- A name is found again on both sides, or each side takes its next
number. -/
theorem define (rhs : Rhs) (ty : Ty) (memoize : Bool) :
    Build.Tracks ρ (Value.rename ρ.name) (Build.define rhs ty memoize)
      (Build.define (rhs.rename ρ.name) ty memoize) := by
  refine openBlock_bind (.define rhs ty memoize) fun b c blk h hfirst hle => ?_
  rw [← remembers] at hle ⊢
  rw [← remembers, remembers_rename]
  have hlookup : (blk.rename ρ.name).memo.lookup (rhs.rename ρ.name) =
      (blk.memo.lookup rhs).map (Value.rename ρ.name) := lookup_rename ρ.injective blk.memo rhs
  have hfound : (if remembers rhs memoize then
        (blk.rename ρ.name).memo.lookup (rhs.rename ρ.name) else none) =
      (if remembers rhs memoize then blk.memo.lookup rhs else none).map (Value.rename ρ.name) := by
    rw [hlookup, apply_ite (Option.map (Value.rename ρ.name)), Option.map_none]
  rw [hfound]
  cases hcase : if remembers rhs memoize then blk.memo.lookup rhs else none with
  | some v => exact ⟨h, rfl⟩
  | none =>
    rw [hcase] at hle
    -- The number taken is below the limit, so the renaming leads from the
    -- one to the other.
    have hid : c.issued = ρ.name b.issued := by rw [h.issued, ρ.name_eq b.issued h.low_le hle]
    have hcount : b.issued + 1 + ρ.gap = c.issued + 1 := by
      rw [h.issued, Nat.add_right_comm]
    have hupdate := h.update { blk with
      stmts := blk.stmts ++ [.assign b.issued ty rhs]
      memo := if remembers rhs memoize then (rhs, .assign b.issued ty) :: blk.memo
        else blk.memo } hfirst (Nat.le_succ b.issued)
    rw [OpenBlock.rename_append, apply_ite (List.map _), hcount] at hupdate
    refine ⟨?_, ?_⟩
    · show Builder.Alike ρ _ { c with
        issued := c.issued + 1
        current := some { blk.rename ρ.name with
          stmts := _ ++ [.assign c.issued ty _]
          memo := if remembers rhs memoize then (rhs.rename ρ.name, .assign c.issued ty) :: _
            else _ } }
      rw [hid] at hupdate ⊢
      exact hupdate
    · show Except.ok (Value.assign c.issued ty) = _
      rw [hid]
      rfl

/-- An application is folded or named, as the types and the operands
say. -/
theorem evaluateApp (app : App) :
    Build.Tracks ρ (Value.rename ρ.name) (Build.evaluateApp app)
      (Build.evaluateApp (app.rename ρ.name)) := by
  have htype : (app.rename ρ.name).resultType = app.resultType.map id := by
    rw [App.resultType_rename]
    cases app.resultType <;> rfl
  refine (check htype).bind fun ty => ?_
  rw [App.fold_rename ρ.injective]
  cases app.fold with
  | none => exact define (.app app) ty true
  | some v => exact .pure _ v

/-- So is one application after the other, from the leaves up. -/
theorem evaluate (e : Expr Value) :
    Build.Tracks ρ (Value.rename ρ.name) (Build.evaluate e)
      (Build.evaluate (e.map (Value.rename ρ.name))) := by
  induction e with
  | leaf v => exact .pure _ v
  | unary op arg ih => exact ih.bind fun v => evaluateApp (.unary op v)
  | binary op left right ihl ihr =>
    exact ihl.bind fun v => ihr.bind fun w => evaluateApp (.binary op v w)
  | ext op arg width ih => exact ih.bind fun v => evaluateApp (.ext op v width)
  | select cond onTrue onFalse ihc iht ihf =>
    exact ihc.bind fun u => iht.bind fun v => ihf.bind fun w => evaluateApp (.select u v w)

/-- An address is checked by its type. -/
theorem checkAddress (m : Machine) (op : String) (addr : Value) :
    Build.Tracks ρ id (Build.checkAddress m op addr)
      (Build.checkAddress m op (addr.rename ρ.name)) := by
  unfold Build.checkAddress
  rw [Value.ty_rename]
  split
  · exact .pure id ()
  · exact .fail id _

/-- A load finds a constant on both sides, or is named on both. -/
theorem load (m : Machine) (img : Image) (addr : Value) (bytes : Nat) :
    Build.Tracks ρ (Value.rename ρ.name) (Build.load m img addr bytes)
      (Build.load m img (addr.rename ρ.name) bytes) := by
  refine (checkAddress m "read_mem" addr).bind fun _ => ?_
  rw [constantAt?_rename]
  cases isAccessSize bytes with
  | false => exact .fail _ _
  | true =>
    cases constantAt? img addr bytes with
    | some v => exact .pure _ v
    | none => exact define (.load addr bytes) _ false

/-- A store is checked and appended. -/
theorem store (m : Machine) (addr value : Value) :
    Build.Tracks ρ id (Build.store m addr value)
      (Build.store m (addr.rename ρ.name) (value.rename ρ.name)) := by
  refine (checkAddress m "write_mem" addr).bind fun _ => ?_
  rw [Value.ty_rename]
  split
  · exact .fail id _
  · exact emit (.store addr value)

/-- A condition is checked by its type. -/
theorem checkCondition (cond : Value) :
    Build.Tracks ρ id (Build.checkCondition cond) (Build.checkCondition (cond.rename ρ.name)) := by
  unfold Build.checkCondition
  rw [Value.ty_rename]
  split
  · exact .pure id ()
  · exact .fail id _

/-! ### Blocks -/

/-- The open block is closed on both sides, whether or not the ledgers
take it. -/
theorem close {exit exit' : RegFile → Exit}
    (hexit : ∀ regs, exit' (regs.rename ρ.name) = (exit regs).rename ρ.name) :
    Build.Tracks ρ id (Build.close exit) (Build.close exit') := by
  refine ⟨fun b => (Grows.close exit b).issued_le, fun b c h _ => ?_⟩
  obtain ⟨hb, hc⟩ | ⟨blk, hb, hc, hfirst⟩ := h.current_cases
  · rw [Build.close, Build.close, openBlock_bind_of_closed hb, openBlock_bind_of_closed hc]
    exact ⟨h, rfl⟩
  · have hblock : (⟨blk.index, blk.addr, blk.stmts.map (Stmt.rename ρ.name),
        exit' (blk.regs.rename ρ.name)⟩ : Block) =
        Block.rename ρ.name ⟨blk.index, blk.addr, blk.stmts, exit blk.regs⟩ := by
      rw [hexit]
      rfl
    rw [close_of_open hb, close_of_open hc, OpenBlock.rename, hblock]
    obtain ⟨l, m, hl, hm, hlm⟩ | ⟨v, hl, hm⟩ :=
      h.ledger.push ⟨blk.index, blk.addr, blk.stmts, exit blk.regs⟩ hfirst
    · rw [hl, hm]
      exact ⟨h.closed hlm, rfl⟩
    · -- A block that is refused is gone all the same.
      rw [hl, hm]
      exact ⟨h.closed h.ledger, rfl⟩

/-- The end of an arm closes its block, unless that has been done on both
sides. -/
theorem closeIfOpen : Build.Tracks ρ id Build.closeIfOpen Build.closeIfOpen := by
  have hclose : Build.Tracks ρ id (Build.close .fetch >>= fun _ => pure ())
      (Build.close .fetch >>= fun _ => pure ()) := (close fun _ => rfl).bind fun _ => .pure id ()
  refine ⟨fun b => (Grows.closeIfOpen b).issued_le, fun b c h hle => ?_⟩
  have hopen : c.isOpen = b.isOpen := by
    rw [Builder.isOpen, Builder.isOpen, h.current, Option.isSome_map]
  rw [Build.closeIfOpen, get_bind_apply] at hle ⊢
  rw [get_bind_apply, hopen]
  cases hb : b.isOpen with
  | false => exact ⟨h, rfl⟩
  | true =>
    rw [hb] at hle
    exact hclose.follows b c h hle

/-- Both sides split into blocks of the same numbers. -/
theorem split (cond : Value) :
    Build.Tracks ρ (Prod.map id (Prod.map id (RegFile.rename ρ.name))) (Build.split cond)
      (Build.split (cond.rename ρ.name)) := by
  refine openBlock_bind (.split cond) fun b c blk h _ hle => ?_
  have hclose {t f t' f' : BlockIndex} (ht : t' = t) (hf : f' = f) :
      Build.Tracks ρ (Prod.map id (Prod.map id (RegFile.rename ρ.name)))
        (Build.close (fun _ => .branch cond t f) >>= fun _ => pure (t, f, blk.regs))
        (Build.close (fun _ => .branch (cond.rename ρ.name) t' f') >>= fun _ =>
          pure (t', f', blk.regs.rename ρ.name)) := by
    rw [ht, hf]
    exact (close fun _ => rfl).bind fun _ => .pure _ (t, f, blk.regs)
  -- Both ledgers hand out the same two numbers first.
  have halloc : Builder.Alike ρ { b with ledger := b.ledger.alloc.2.alloc.2 }
      { c with ledger := c.ledger.alloc.2.alloc.2 } :=
    ⟨h.ledger.alloc.alloc, h.current, h.first_le, h.instrAddr, h.low_le, h.issued⟩
  exact (hclose h.ledger.next (congrArg (· + 1) h.ledger.next)).follows _ _ halloc hle

/-- Both sides open a block with the same number. -/
theorem enter {index : BlockIndex} (hindex : ρ.first ≤ index) (regs : RegFile) :
    Build.Tracks ρ id (Build.enter index regs) (Build.enter index (regs.rename ρ.name)) := by
  refine ⟨fun b => (Grows.enter index regs b).issued_le, fun b c h _ => ⟨?_, rfl⟩⟩
  have hput := h.putBlock { index, addr := b.instrAddr, regs } hindex
  show Builder.Alike ρ _
    { c with current := some { index, addr := c.instrAddr, regs := regs.rename ρ.name } }
  rw [h.instrAddr] at hput ⊢
  exact hput

end Build.Tracks

end FlowRecovery
