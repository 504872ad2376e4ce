import FlowRecovery.Proofs.Builder
import FlowRecovery.Proofs.Fold
import Mathlib.Logic.Relation

/-!
# `FlowRecovery.Proofs.Memo`: a block computes nothing twice

Results are used again within a block: applications and pure primitives,
unless they read a clobbered value (`Rhs.isShared`). Everything else gets
a new name every time.

An operation that stays in the open block can do four things to it
(`Builder.Edit`): write a register, append a statement, name a right-hand
side that is not yet remembered, or move the address of new blocks. So
whatever a single edit preserves holds after any number of operations
(`Build.Edits`). Two such facts carry the theory:

- the table of results is exact (`OpenBlock.Exact`): it lists the shared
  right-hand sides that the block assigns, each with its one assignment;
- what is remembered stays so (`Builder.Recalls`).

From the second one, an expression that has been evaluated once is
settled: evaluating it again gives the same value and changes nothing,
however much happens in between (`Build.settled_of_evaluate`).
-/

set_option autoImplicit false

namespace FlowRecovery

/-- Is a result with this right-hand side used again? -/
def Rhs.isShared : Rhs → Bool
  | .app a => !a.operands.any Value.isClobbered
  | .prim p => p.isPure && !p.args.any Value.isClobbered
  | .load .. => false

/-- Does the statement assign this right-hand side? -/
def Stmt.assigns (rhs : Rhs) : Stmt → Bool
  | .assign _ _ other => other == rhs
  | .store .. | .arch .. | .instruction .. | .comment _ => false

/-- Without a result a statement assigns nothing. -/
theorem Stmt.assigns_eq_false {s : Stmt} (h : s.assignId? = none) (rhs : Rhs) :
    s.assigns rhs = false := by
  cases s with
  | assign => cases h
  | store | arch | instruction | comment => rfl

/-! ### Edits of the open block -/

/-- The builder once `rhs` has got the next number in its open block. -/
def Builder.named (b : Builder) (blk : OpenBlock) (rhs : Rhs) (ty : Ty)
    (memo : List (Rhs × Value)) : Builder :=
  { b with
    issued := b.issued + 1
    current := some { blk with stmts := blk.stmts ++ [.assign b.issued ty rhs], memo } }

/-- One change to the open block. -/
inductive Builder.Edit : Builder → Builder → Prop
  | write {b : Builder} {blk : OpenBlock} (hblk : b.current = some blk) (regs : RegFile) :
      Edit b { b with current := some { blk with regs } }
  | append {b : Builder} {blk : OpenBlock} {s : Stmt} (hblk : b.current = some blk)
      (hs : s.assignId? = none) :
      Edit b { b with current := some { blk with stmts := blk.stmts ++ [s] } }
  | name {b : Builder} {blk : OpenBlock} {rhs : Rhs} (hblk : b.current = some blk)
      (hnew : rhs.isShared = true → blk.memo.lookup rhs = none) (ty : Ty) :
      Edit b (b.named blk rhs ty
        (if rhs.isShared then (rhs, .assign b.issued ty) :: blk.memo else blk.memo))
  | move {b : Builder} (addr : Word) : Edit b { b with instrAddr := addr }

/-- The second builder is the first one after any number of edits. -/
abbrev Builder.Later : Builder → Builder → Prop := Relation.ReflTransGen Builder.Edit

/-- What one edit preserves holds later. -/
theorem Builder.Later.preserves {I : Builder → Prop}
    (hedit : ∀ b b', Builder.Edit b b' → I b → I b') {b b' : Builder} (h : b.Later b')
    (hb : I b) : I b' := by
  induction h with
  | refl => exact hb
  | tail _ hlast ih => exact hedit _ _ hlast ih

namespace Build

variable {α β : Type}

/-- The operation does nothing but edit the open block, whether or not it
succeeds. -/
def Edits (x : Build α) : Prop := ∀ b : Builder, b.Later (x b).2

namespace Edits

/-- A result that is there needs no edit. -/
theorem pure (a : α) : Edits (Pure.pure a : Build α) := fun _ => .refl

/-- Neither does a violation. -/
theorem violate (v : Violation) : Edits (Build.violate v : Build α) := fun _ => .refl

/-- One part after the other. -/
theorem bind {x : Build α} {f : α → Build β} (hx : Edits x) (hf : ∀ a, Edits (f a)) :
    Edits (x >>= f) := by
  intro b
  have hb := hx b
  rw [bind_run]
  cases hxb : x b with
  | mk result b₁ =>
    rw [hxb] at hb
    cases result with
    | error e => exact hb
    | ok a => exact hb.trans (hf a b₁)

/-- An operation that needs an open block does nothing without one. -/
theorem openBlock_bind {f : OpenBlock → Build α}
    (hf : ∀ (b : Builder) blk, b.current = some blk → b.Later (f blk b).2) :
    Edits (Build.openBlock >>= f) := by
  intro b
  cases hblk : b.current with
  | none => rw [Build.openBlock_bind_of_closed hblk]
  | some blk =>
    rw [Build.openBlock_bind_of_open hblk]
    exact hf b blk hblk

/-- Reading a register changes nothing. -/
theorem getRegister (r : Reg) : Edits (Build.getRegister r) := by
  refine openBlock_bind fun b blk _ => ?_
  cases blk.regs.get? r with
  | none => exact .refl
  | some v => exact .refl

/-- Writing one replaces the registers, unless the register is the zero
register or the value does not fit. -/
theorem setRegister (m : Machine) (r : Reg) (v : Value) : Edits (Build.setRegister m r v) := by
  refine openBlock_bind fun b blk hblk => ?_
  split
  · exact .refl
  · cases blk.regs.set r v with
    | error e => exact .refl
    | ok file => exact .single (.write hblk file)

/-- A statement without a result may be appended. -/
theorem emit {s : Stmt} (hs : s.assignId? = none) : Edits (Build.emit s) :=
  openBlock_bind fun _ _ hblk => .single (.append hblk hs)

end Edits

/-- A result is used again, or gets a name. -/
theorem define_cases {b : Builder} {blk : OpenBlock} (hblk : b.current = some blk) {rhs : Rhs}
    {memoize : Bool} (hshared : remembers rhs memoize = rhs.isShared) (ty : Ty) :
    (∃ v, rhs.isShared = true ∧ blk.memo.lookup rhs = some v ∧
      define rhs ty memoize b = (.ok v, b)) ∨
    ((rhs.isShared = true → blk.memo.lookup rhs = none) ∧
      define rhs ty memoize b = (.ok (.assign b.issued ty), b.named blk rhs ty
        (if rhs.isShared then (rhs, .assign b.issued ty) :: blk.memo else blk.memo))) := by
  by_cases hold : ∃ v, rhs.isShared = true ∧ blk.memo.lookup rhs = some v
  · obtain ⟨v, hrhs, hv⟩ := hold
    refine Or.inl ⟨v, hrhs, hv, define_eq_ok_iff.2 ⟨blk, hblk, Or.inl ⟨?_, hv, rfl⟩⟩⟩
    rw [hshared, hrhs]
  · have hnew : rhs.isShared = true → blk.memo.lookup rhs = none := fun hrhs =>
      Option.eq_none_iff_forall_ne_some.2 fun v hv => hold ⟨v, hrhs, hv⟩
    refine Or.inr ⟨hnew, define_eq_ok_iff.2 ⟨blk, hblk, Or.inr ?_⟩⟩
    rw [hshared]
    exact ⟨hnew, rfl, rfl⟩

namespace Edits

/-- A right-hand side is named, or its name is found. -/
theorem define {rhs : Rhs} {memoize : Bool} (hshared : remembers rhs memoize = rhs.isShared)
    (ty : Ty) : Edits (Build.define rhs ty memoize) := by
  intro b
  cases hblk : b.current with
  | none => rw [Build.define, openBlock_bind_of_closed hblk]
  | some blk =>
    rcases define_cases hblk hshared ty with ⟨v, -, -, hdefine⟩ | ⟨hnew, hdefine⟩
    · rw [hdefine]
    · rw [hdefine]
      exact .single (.name hblk hnew ty)

/-- An application is folded, or named. -/
theorem evaluateApp (app : App) : Edits (Build.evaluateApp app) := by
  unfold Build.evaluateApp
  cases app.resultType with
  | error e => exact violate e
  | ok ty =>
    cases app.fold with
    | some v => exact pure v
    | none => exact define rfl ty

/-- So is one application after the other, from the leaves up. -/
theorem evaluate (e : Expr Value) : Edits (Build.evaluate e) := by
  induction e with
  | leaf v => exact pure v
  | unary op arg ih => exact ih.bind fun _ => evaluateApp _
  | ext op arg width ih => exact ih.bind fun _ => evaluateApp _
  | binary op left right ihl ihr => exact ihl.bind fun _ => ihr.bind fun _ => evaluateApp _
  | select cond onTrue onFalse ihc iht ihf =>
    exact ihc.bind fun _ => iht.bind fun _ => ihf.bind fun _ => evaluateApp _

/-- A check changes nothing. -/
theorem checkAddress (m : Machine) (op : String) (addr : Value) :
    Edits (Build.checkAddress m op addr) := by
  unfold Build.checkAddress
  split
  · exact pure ()
  · exact violate _

/-- A load finds a constant, or is named. -/
theorem load (m : Machine) (img : Image) (addr : Value) (bytes : Nat) :
    Edits (Build.load m img addr bytes) := by
  refine (checkAddress m _ addr).bind fun _ => ?_
  split
  · split
    · exact pure _
    · exact define rfl _
  · exact violate _

/-- A store is appended. -/
theorem store (m : Machine) (addr value : Value) : Edits (Build.store m addr value) := by
  refine (checkAddress m _ addr).bind fun _ => ?_
  split
  · exact violate _
  · exact emit rfl

end Edits

/-- The operations that stay in the open block. -/
inductive Op where
  | getRegister (r : Reg)
  | setRegister (m : Machine) (r : Reg) (v : Value)
  | setIp (m : Machine) (addr : Word)
  | emit (s : Stmt)
  | evaluate (e : Expr Value)
  | evaluateApp (app : App)
  | evaluatePrim (p : Prim)
  | load (m : Machine) (img : Image) (addr : Value) (bytes : Nat)
  | store (m : Machine) (addr value : Value)
  /-- Move the address at which new blocks start. -/
  | moveTo (addr : Word)

namespace Op

/-- Carry out the operation and forget its result. -/
def run : Op → Build Unit
  | .getRegister r => do let _ ← Build.getRegister r
  | .setRegister m r v => Build.setRegister m r v
  | .setIp m addr => Build.setIp m addr
  | .emit s => Build.emit s
  | .evaluate e => do let _ ← Build.evaluate e
  | .evaluateApp app => do let _ ← Build.evaluateApp app
  | .evaluatePrim p => do let _ ← Build.evaluatePrim p
  | .load m img addr bytes => do let _ ← Build.load m img addr bytes
  | .store m addr value => Build.store m addr value
  | .moveTo addr => modify fun b => { b with instrAddr := addr }

/-- Carry out one after the other, going on after failures. -/
def runAll (ops : List Op) (b : Builder) : Builder :=
  ops.foldl (fun b op => (op.run b).2) b

/-- The operation appends no assignment as it is. -/
def Unnamed : Op → Prop
  | .emit s => s.assignId? = none
  | _ => True

/-- Each operation is made of edits. -/
theorem edits_run {op : Op} (h : op.Unnamed) : Edits op.run := by
  cases op with
  | getRegister r => exact (Edits.getRegister r).bind fun _ => .pure _
  | setRegister m r v => exact .setRegister m r v
  | setIp m addr => exact .setRegister m m.ip (m.addr addr)
  | emit s => exact .emit h
  | evaluate e => exact (Edits.evaluate e).bind fun _ => .pure _
  | evaluateApp app => exact (Edits.evaluateApp app).bind fun _ => .pure _
  | evaluatePrim p => exact (Edits.define rfl p.ty).bind fun _ => .pure _
  | load m img addr bytes => exact (Edits.load m img addr bytes).bind fun _ => .pure _
  | store m addr value => exact .store m addr value
  | moveTo addr => exact fun b => .single (.move addr)

/-- So is a list of operations, whether or not they succeed. -/
theorem later_runAll {ops : List Op} (h : ∀ op ∈ ops, op.Unnamed) (b : Builder) :
    b.Later (runAll ops b) := by
  induction ops generalizing b with
  | nil => exact .refl
  | cons op rest ih =>
    have hfirst := edits_run (h op List.mem_cons_self) b
    exact hfirst.trans (ih (fun other hother => h other (List.mem_cons_of_mem op hother)) _)

end Op

end Build

/-! ### The table of results -/

/-- The table lists exactly the shared right-hand sides that the block
assigns, each with its assignment, and there is only one such assignment
for each. -/
structure OpenBlock.Exact (blk : OpenBlock) : Prop where
  once : ∀ rhs, rhs.isShared = true → blk.stmts.countP (·.assigns rhs) ≤ 1
  memo : ∀ rhs v, blk.memo.lookup rhs = some v ↔
    rhs.isShared = true ∧ ∃ id ty, Stmt.assign id ty rhs ∈ blk.stmts ∧ v = .assign id ty

namespace OpenBlock.Exact

variable {blk : OpenBlock} {rhs : Rhs}

/-- The empty table of an empty block is exact. -/
theorem fresh (hstmts : blk.stmts = []) (hmemo : blk.memo = []) : blk.Exact where
  once rhs _ := by simp [hstmts]
  memo rhs v := by simp [hstmts, hmemo]

/-- A statement without a result does not concern the table. -/
theorem append (h : blk.Exact) {s : Stmt} (hs : s.assignId? = none) :
    OpenBlock.Exact { blk with stmts := blk.stmts ++ [s] } where
  once rhs hrhs := by
    rw [List.countP_append, List.countP_singleton, Stmt.assigns_eq_false hs]
    exact h.once rhs hrhs
  memo rhs v := by
    have hne (id : AssignId) (ty : Ty) : Stmt.assign id ty rhs ≠ s := by
      rintro rfl
      cases hs
    simp only [List.mem_append, List.mem_singleton, hne, or_false]
    exact h.memo rhs v

/-- A shared right-hand side that is not remembered is not assigned. -/
theorem countP_eq_zero (h : blk.Exact) (hrhs : rhs.isShared = true)
    (hnew : blk.memo.lookup rhs = none) : blk.stmts.countP (·.assigns rhs) = 0 := by
  refine List.countP_eq_zero.2 fun s hs hassigns => ?_
  cases s with
  | assign id ty other =>
    have hother : other = rhs := by simpa [Stmt.assigns] using hassigns
    rw [hother] at hs
    have hsome := (h.memo rhs (.assign id ty)).2 ⟨hrhs, id, ty, hs, rfl⟩
    rw [hnew] at hsome
    cases hsome
  | store | arch | instruction | comment => cases hassigns

/-- Naming keeps the table exact, if it is asked first. -/
theorem name (h : blk.Exact) (hnew : rhs.isShared = true → blk.memo.lookup rhs = none)
    (id : AssignId) (ty : Ty) :
    OpenBlock.Exact { blk with
      stmts := blk.stmts ++ [.assign id ty rhs]
      memo := if rhs.isShared then (rhs, .assign id ty) :: blk.memo else blk.memo } where
  once other hother := by
    rw [List.countP_append, List.countP_singleton]
    by_cases heq : rhs = other
    · rw [← heq] at hother ⊢
      rw [h.countP_eq_zero hother (hnew hother)]
      split <;> omega
    · have hne : (Stmt.assign id ty rhs).assigns other = false := by simp [Stmt.assigns, heq]
      rw [hne]
      exact h.once other hother
  memo other v := by
    by_cases heq : other = rhs
    · -- Nothing else assigns it, so the new assignment is the one.
      subst heq
      cases hshared : other.isShared with
      | false => simpa [hshared] using h.memo other v
      | true =>
        have hnone (id : AssignId) (ty : Ty) : Stmt.assign id ty other ∉ blk.stmts := fun hmem => by
          have hsome := (h.memo other _).2 ⟨hshared, id, ty, hmem, rfl⟩
          rw [hnew hshared] at hsome
          cases hsome
        simp [hnone, eq_comm]
    · -- Another right-hand side is looked up as before.
      have hlookup : (if rhs.isShared then (rhs, Value.assign id ty) :: blk.memo
          else blk.memo).lookup other = blk.memo.lookup other := by
        have hne : (other == rhs) = false := by simp [heq]
        split
        · rw [List.lookup_cons, hne]
        · rfl
      rw [hlookup, h.memo]
      simp [heq]

end OpenBlock.Exact

/-- The table of the open block is exact, and the numbers in the block are
taken. -/
def Builder.Exact (b : Builder) : Prop :=
  ∃ blk, b.current = some blk ∧ blk.Exact ∧
    ∀ s ∈ blk.stmts, ∀ id, s.assignId? = some id → id < b.issued

/-- The table stays exact under an edit, and numbers are taken before they
are used. -/
theorem Builder.Edit.exact {b b' : Builder} (h : Builder.Edit b b') (hb : b.Exact) : b'.Exact := by
  obtain ⟨blk, hblk, hexact, hids⟩ := hb
  cases h with
  | move addr => exact ⟨blk, hblk, hexact, hids⟩
  | write hopen regs =>
    cases hblk.symm.trans hopen
    exact ⟨_, rfl, ⟨hexact.once, hexact.memo⟩, hids⟩
  | append hopen hs =>
    cases hblk.symm.trans hopen
    refine ⟨_, rfl, hexact.append hs, fun t ht id hid => ?_⟩
    rcases List.mem_append.1 ht with hold | hnew
    · exact hids t hold id hid
    · rw [List.mem_singleton.1 hnew, hs] at hid
      cases hid
  | name hopen hnew ty =>
    cases hblk.symm.trans hopen
    refine ⟨_, rfl, hexact.name hnew b.issued ty, fun t ht id hid => ?_⟩
    rcases List.mem_append.1 ht with hold | hnew
    · exact Nat.lt_succ_of_lt (hids t hold id hid)
    · rw [List.mem_singleton.1 hnew] at hid
      cases hid
      exact Nat.lt_succ_self b.issued

/-- It stays exact. -/
theorem Builder.Later.exact {b b' : Builder} (h : b.Later b') (hb : b.Exact) : b'.Exact :=
  h.preserves (fun _ _ hedit => hedit.exact) hb

/-! ### Evaluating again -/

/-- The result of the right-hand side is remembered in the open block. -/
def Builder.Recalls (b : Builder) (rhs : Rhs) (v : Value) : Prop :=
  ∃ blk, b.current = some blk ∧ blk.memo.lookup rhs = some v

/-- What is remembered stays so: only what is not yet remembered is added
to the table. -/
theorem Builder.Edit.recalls {b b' : Builder} (h : Builder.Edit b b') {rhs : Rhs} {v : Value}
    (hb : b.Recalls rhs v) : b'.Recalls rhs v := by
  obtain ⟨blk, hblk, hmemo⟩ := hb
  cases h with
  | move addr => exact ⟨blk, hblk, hmemo⟩
  | write hopen regs =>
    cases hblk.symm.trans hopen
    exact ⟨_, rfl, hmemo⟩
  | append hopen hs =>
    cases hblk.symm.trans hopen
    exact ⟨_, rfl, hmemo⟩
  | @name _ other hopen hnew ty =>
    cases hblk.symm.trans hopen
    refine ⟨_, rfl, ?_⟩
    cases hshared : other.isShared with
    | false => simpa [hshared] using hmemo
    | true =>
      have hne : (rhs == other) = false := by
        refine beq_false_of_ne fun heq => ?_
        rw [heq, hnew hshared] at hmemo
        cases hmemo
      simp [List.lookup_cons, hne, hmemo]

/-- What is remembered is remembered later. -/
theorem Builder.Later.recalls {b b' : Builder} (h : b.Later b') {rhs : Rhs} {v : Value}
    (hb : b.Recalls rhs v) : b'.Recalls rhs v :=
  h.preserves (fun _ _ hedit => hedit.recalls) hb

namespace Build

/-- From this state on the operation gives this value and changes
nothing. -/
def Settled (x : Build Value) (v : Value) (b : Builder) : Prop :=
  ∀ b', b.Later b' → x b' = (.ok v, b')

/-- What is settled stays settled. -/
theorem Settled.later {x : Build Value} {v : Value} {b b' : Builder} (hx : Settled x v b)
    (h : b.Later b') : Settled x v b' :=
  fun b'' h' => hx b'' (h.trans h')

/-- If both parts are settled, so is the whole. -/
theorem Settled.bind {x : Build Value} {f : Value → Build Value} {u v : Value} {b : Builder}
    (hx : Settled x u b) (hf : Settled (f u) v b) : Settled (x >>= f) v b := by
  intro b' h
  rw [bind_apply_of_ok (hx b' h)]
  exact hf b' h

/-- The state after an operation that edits is a later one. -/
theorem Edits.later {α : Type} {x : Build α} (hx : Edits x) {b b' : Builder}
    {result : Except BuildError α} (h : x b = (result, b')) : b.Later b' := by
  have hb := hx b
  rwa [h] at hb

variable {b b' : Builder} {v : Value}

/-- An application without clobbered operands is settled once it has been
evaluated. -/
theorem settled_of_evaluateApp {app : App} (hknown : ∀ u ∈ app.operands, u.isClobbered = false)
    (hb : b.Exact) (h : evaluateApp app b = (.ok v, b')) :
    v.isClobbered = false ∧ Settled (evaluateApp app) v b' := by
  have hshared : Rhs.isShared (.app app) = true := by simpa [Rhs.isShared] using hknown
  obtain ⟨ty, hty, ⟨hfold, rfl⟩ | ⟨hfold, hdefine⟩⟩ := evaluateApp_eq_ok_iff.1 h
  · -- Folding asks nothing of the state.
    refine ⟨?_, fun b'' _ => evaluateApp_eq_ok_iff.2 ⟨ty, hty, Or.inl ⟨hfold, rfl⟩⟩⟩
    rcases App.fold_mem hfold with hconst | hmem
    · exact hconst.isClobbered
    · exact hknown v hmem
  · obtain ⟨blk, hblk, hexact, -⟩ := hb
    have hremembers : remembers (.app app) true = true := hshared
    have hrecalls : v.isClobbered = false ∧ b'.Recalls (.app app) v := by
      have hcases := define_cases hblk (hremembers.trans hshared.symm) ty
      rw [hdefine] at hcases
      rcases hcases with ⟨w, -, hw, hold⟩ | ⟨-, hnew⟩
      · -- What the table holds are names.
        cases hold
        obtain ⟨-, id, ty', -, rfl⟩ := (hexact.memo _ _).1 hw
        exact ⟨rfl, blk, hblk, hw⟩
      · cases hnew
        exact ⟨rfl, _, rfl, by simp [hshared]⟩
    -- Whatever happens next, the table still has the result.
    refine ⟨hrecalls.1, fun b'' hlater => ?_⟩
    obtain ⟨now, hnow, hmemo⟩ := hlater.recalls hrecalls.2
    have hagain : define (.app app) ty true b'' = (.ok v, b'') :=
      define_eq_ok_iff.2 ⟨now, hnow, Or.inl ⟨hremembers, hmemo, rfl⟩⟩
    exact evaluateApp_eq_ok_iff.2 ⟨ty, hty, Or.inr ⟨hfold, hagain⟩⟩

/-- An expression without clobbered leaves is settled once it has been
evaluated. -/
theorem settled_of_evaluate {e : Expr Value} (he : e.All fun u => u.isClobbered = false)
    (hb : b.Exact) (h : evaluate e b = (.ok v, b')) :
    v.isClobbered = false ∧ Settled (evaluate e) v b' := by
  -- An operand is settled before the next one is evaluated, and stays so.
  induction e generalizing b b' v with
  | leaf u =>
    obtain ⟨rfl, rfl⟩ := pure_eq_ok_iff.1 h
    exact ⟨he, fun _ _ => rfl⟩
  | unary op arg ih | ext op arg width ih =>
    obtain ⟨u, b₁, harg, happ⟩ := bind_eq_ok_iff.1 h
    obtain ⟨hu, hargs⟩ := ih he hb harg
    have hb₁ := (Edits.evaluate arg).later harg
    obtain ⟨hv, happs⟩ := settled_of_evaluateApp (by simp [App.operands, hu]) (hb₁.exact hb) happ
    have hb' := (Edits.evaluateApp _).later happ
    exact ⟨hv, (hargs.later hb').bind happs⟩
  | binary op left right ihl ihr =>
    obtain ⟨u, b₁, hleft, h⟩ := bind_eq_ok_iff.1 h
    obtain ⟨w, b₂, hright, happ⟩ := bind_eq_ok_iff.1 h
    obtain ⟨hu, hlefts⟩ := ihl he.1 hb hleft
    have hb₁ := (Edits.evaluate left).later hleft
    obtain ⟨hw, hrights⟩ := ihr he.2 (hb₁.exact hb) hright
    have hb₂ := (Edits.evaluate right).later hright
    obtain ⟨hv, happs⟩ := settled_of_evaluateApp (by simp [App.operands, hu, hw])
      (hb₂.exact (hb₁.exact hb)) happ
    have hb' := (Edits.evaluateApp _).later happ
    exact ⟨hv, (hlefts.later (hb₂.trans hb')).bind ((hrights.later hb').bind happs)⟩
  | select cond onTrue onFalse ihc iht ihf =>
    obtain ⟨c, b₁, hcond, h⟩ := bind_eq_ok_iff.1 h
    obtain ⟨t, b₂, htrue, h⟩ := bind_eq_ok_iff.1 h
    obtain ⟨f, b₃, hfalse, happ⟩ := bind_eq_ok_iff.1 h
    obtain ⟨hc, hconds⟩ := ihc he.1 hb hcond
    have hb₁ := (Edits.evaluate cond).later hcond
    obtain ⟨ht, htrues⟩ := iht he.2.1 (hb₁.exact hb) htrue
    have hb₂ := (Edits.evaluate onTrue).later htrue
    obtain ⟨hf, hfalses⟩ := ihf he.2.2 (hb₂.exact (hb₁.exact hb)) hfalse
    have hb₃ := (Edits.evaluate onFalse).later hfalse
    obtain ⟨hv, happs⟩ := settled_of_evaluateApp (by simp [App.operands, hc, ht, hf])
      (hb₃.exact (hb₂.exact (hb₁.exact hb))) happ
    have hb' := (Edits.evaluateApp _).later happ
    exact ⟨hv, (hconds.later (hb₂.trans (hb₃.trans hb'))).bind
      ((htrues.later (hb₃.trans hb')).bind ((hfalses.later hb').bind happs))⟩

/-! ### Names of their own -/

/-- What is not shared gets the next number, and is not remembered. -/
theorem define_of_not_shared {blk : OpenBlock} (hblk : b.current = some blk) {rhs : Rhs}
    {memoize : Bool} (hremembers : remembers rhs memoize = false) (ty : Ty) :
    define rhs ty memoize b = (.ok (.assign b.issued ty), b.named blk rhs ty blk.memo) := by
  refine define_eq_ok_iff.2 ⟨blk, hblk, Or.inr ?_⟩
  simp [hremembers, Builder.named]

end Build

/-- The table of results is exact.

Start with a new block, and carry out any operations that stay in it.
Then no shared right-hand side has been assigned twice, and the table
lists just those that have been assigned, each with its assignment. What
is not shared gets a name of its own every time: loads that are no
constants, impure primitives, and whatever reads a clobbered value.

An expression without clobbered leaves that has been evaluated gives the
same value from then on, and evaluating it again changes nothing. -/
theorem memo_exact {b : Builder} {blk : OpenBlock} (hblk : b.current = some blk)
    (hstmts : blk.stmts = []) (hmemo : blk.memo = []) {ops : List Build.Op}
    (hops : ∀ op ∈ ops, op.Unnamed) {b' : Builder} (h : Build.Op.runAll ops b = b') :
    ∃ now, b'.current = some now ∧
      (∀ rhs, rhs.isShared = true → now.stmts.countP (·.assigns rhs) ≤ 1) ∧
      (∀ rhs v, now.memo.lookup rhs = some v ↔
        rhs.isShared = true ∧ ∃ id ty, Stmt.assign id ty rhs ∈ now.stmts ∧ v = .assign id ty) ∧
      (∀ s ∈ now.stmts, ∀ id, s.assignId? = some id → id < b'.issued) ∧
      (∀ m img addr bytes, addr.ty = m.addrTy → isAccessSize bytes = true →
        Build.constantAt? img addr bytes = none →
        Build.load m img addr bytes b' = (.ok (.assign b'.issued (.bv (bytes * 8))),
          b'.named now (.load addr bytes) (.bv (bytes * 8)) now.memo)) ∧
      (∀ p : Prim, (p.isPure = false ∨ ∃ u ∈ p.args, u.isClobbered = true) →
        Build.evaluatePrim p b' =
          (.ok (.assign b'.issued p.ty), b'.named now (.prim p) p.ty now.memo)) ∧
      (∀ (app : App) ty, app.resultType = .ok ty → app.fold = none →
        (∃ u ∈ app.operands, u.isClobbered = true) →
        Build.evaluateApp app b' =
          (.ok (.assign b'.issued ty), b'.named now (.app app) ty now.memo)) ∧
      ∀ e v b₁, e.All (fun u => u.isClobbered = false) → Build.evaluate e b' = (.ok v, b₁) →
        ∀ more, (∀ op ∈ more, op.Unnamed) →
          Build.evaluate e (Build.Op.runAll more b₁) = (.ok v, Build.Op.runAll more b₁) := by
  subst h
  have hb : b.Exact := ⟨blk, hblk, .fresh hstmts hmemo, by simp [hstmts]⟩
  have hb' := (Build.Op.later_runAll hops b).exact hb
  -- This is taken first, since it is about the state as a whole.
  have hagain {e : Expr Value} {v : Value} {b₁ : Builder}
      (he : e.All fun u => u.isClobbered = false)
      (hevaluate : Build.evaluate e (Build.Op.runAll ops b) = (.ok v, b₁)) :
      Build.Settled (Build.evaluate e) v b₁ := (Build.settled_of_evaluate he hb' hevaluate).2
  obtain ⟨now, hnow, hexact, hids⟩ := hb'
  refine ⟨now, hnow, hexact.once, hexact.memo, hids, ?_, ?_, ?_, ?_⟩
  · intro m img addr bytes haddr hsize hconstant
    exact Build.load_eq_ok_iff.2
      ⟨haddr, hsize, Or.inr ⟨hconstant, Build.define_of_not_shared hnow rfl _⟩⟩
  · intro p hp
    refine Build.define_of_not_shared hnow ?_ p.ty
    rcases hp with himpure | hclobbered
    · simp [Build.remembers, himpure]
    · simpa [Build.remembers, Rhs.operands] using fun _ => hclobbered
  · intro app ty hty hfold hclobbered
    refine Build.evaluateApp_eq_ok_iff.2
      ⟨ty, hty, Or.inr ⟨hfold, Build.define_of_not_shared hnow ?_ ty⟩⟩
    simpa [Build.remembers, Rhs.operands] using hclobbered
  · intro e v b₁ he hevaluate more hmore
    exact hagain he hevaluate _ (Build.Op.later_runAll hmore b₁)

/-- The square of a sum, both sides of which are the same. -/
def sharedSquare : Expr Value :=
  let sum := .binary .add (.leaf (.initial 1 (.bv 32))) (.leaf (.initial 2 (.bv 32)))
  .binary .mul sum sum

/-- What is evaluated twice is shared, unless it reads a clobbered value or
is not pure. -/
def sharedOps : List Build.Op :=
  let lost : App := .binary .add (.initial 1 (.bv 32)) (.clobbered (.bv 32))
  let clock : Prim := { name := "clock", args := [], ty := .bv 32, isPure := false }
  [.evaluate sharedSquare, .evaluateApp lost, .evaluateApp lost, .evaluatePrim clock,
    .evaluatePrim clock, .evaluate sharedSquare]

/-- The state after them, from the start of a run. -/
def sharedRun : Builder :=
  Build.Op.runAll sharedOps (.start {} 0x1000 ⟨[]⟩)

/-- The sum and its square are named once, the rest is named twice. -/
def sharedStmts : List Stmt :=
  let lost : App := .binary .add (.initial 1 (.bv 32)) (.clobbered (.bv 32))
  let clock : Prim := { name := "clock", args := [], ty := .bv 32, isPure := false }
  [.assign 0 (.bv 32) (.app (.binary .add (.initial 1 (.bv 32)) (.initial 2 (.bv 32)))),
    .assign 1 (.bv 32) (.app (.binary .mul (.assign 0 (.bv 32)) (.assign 0 (.bv 32)))),
    .assign 2 (.bv 32) (.app lost), .assign 3 (.bv 32) (.app lost),
    .assign 4 (.bv 32) (.prim clock), .assign 5 (.bv 32) (.prim clock)]

/-- The square is found in the table whatever else is done, and it is never
named again. -/
theorem memo_exact_square :
    sharedRun.stmts = sharedStmts ∧
    (∃ now, sharedRun.current = some now ∧
      now.memo.lookup (.app (.binary .mul (.assign 0 (.bv 32)) (.assign 0 (.bv 32)))) =
        some (.assign 1 (.bv 32))) ∧
    ∀ more, (∀ op ∈ more, op.Unnamed) →
      Build.evaluate sharedSquare (Build.Op.runAll more sharedRun) =
        (.ok (.assign 1 (.bv 32)), Build.Op.runAll more sharedRun) := by
  have hops : ∀ op ∈ sharedOps, op.Unnamed := by simp [sharedOps, Build.Op.Unnamed]
  have hstmts : sharedRun.stmts = sharedStmts := by decide +kernel
  obtain ⟨now, hnow, -, hmemo, -, -, -, -, hagain⟩ :=
    memo_exact (b := .start {} 0x1000 ⟨[]⟩) rfl rfl rfl hops rfl
  have hsame : now.stmts = sharedStmts := by
    rw [← hstmts, Builder.stmts, sharedRun, hnow]
    rfl
  have hevaluate : Build.evaluate sharedSquare sharedRun =
      (.ok (.assign 1 (.bv 32)), sharedRun) := rfl
  refine ⟨hstmts, ⟨now, hnow, (hmemo _ _).2 ⟨rfl, 1, .bv 32, ?_, rfl⟩⟩, ?_⟩
  · rw [hsame]
    exact List.mem_cons_of_mem _ List.mem_cons_self
  · exact hagain sharedSquare _ _ ⟨⟨rfl, rfl⟩, rfl, rfl⟩ hevaluate

end FlowRecovery
