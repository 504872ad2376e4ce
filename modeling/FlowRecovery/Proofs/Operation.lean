import FlowRecovery.Proofs.Memo
import FlowRecovery.Proofs.OpenBlock

/-!
# `FlowRecovery.Proofs.Operation`: what operations keep, recipes keep

An invariant that is to hold all through a run has to be kept by each
operation, with each of its results. There are three things only that an
operation on the open block does to it: it writes a register, appends a
statement, or names a right-hand side (`Builder.Kept`). So there are three
cases to prove, and the operations follow (`Builder.Kept.preserves_op`).

The steps of a recipe are made of operations. What these keep is kept by
a term, by a list of terms, and by every step that neither ends the block
nor has to do with checkpoints or with the address of new blocks
(`Recipe.Step.preserves_of_ops`).

The statements that a recipe appends as they are can be anything, and so
can the registers that it writes. Where that matters, a property is asked of
them (`Build.Op.Allowed`).
-/

set_option autoImplicit false

namespace FlowRecovery

/-- What is made of the result changes nothing about the state. -/
theorem bind_pure_snd {ε σ α β : Type} (x : ExceptT ε (StateM σ) α) (f : α → β) (s : σ) :
    ((x >>= fun a => pure (f a)) s).2 = (x s).2 := by
  rw [bind_run]
  cases x s with
  | mk result t => cases result <;> rfl

/-- The operation leaves the address of new blocks alone. -/
def Build.Op.StaysPut : Build.Op → Prop
  | .moveTo _ => False
  | _ => True

/-- What the operation appends as it is has the property. -/
def Build.Op.Emits (E : Stmt → Prop) : Build.Op → Prop
  | .emit s => E s
  | _ => True

/-- Every register that the operation writes has the property. Writes to the
zero register are dropped. -/
def Build.Op.Writes (W : Reg → Prop) : Build.Op → Prop
  | .setRegister m r _ => m.zero ≠ some r → W r
  | .setIp m _ => m.zero ≠ some m.ip → W m.ip
  | _ => True

/-- The operation leaves the address of new blocks alone, and what it writes
and appends has these properties. -/
structure Build.Op.Allowed (W : Reg → Prop) (E : Stmt → Prop) (op : Build.Op) : Prop where
  put : op.StaysPut
  writes : op.Writes W
  emits : op.Emits E

/-- Nothing is asked of the registers that are written. -/
theorem Build.Op.allowed_of {E : Stmt → Prop} {op : Build.Op} (hput : op.StaysPut)
    (hemits : op.Emits E) : op.Allowed (fun _ => True) E := by
  refine ⟨hput, ?_, hemits⟩
  cases op with
  | setRegister | setIp => exact fun _ => trivial
  | getRegister | emit | evaluate | evaluateApp | evaluatePrim | load | store | moveTo => trivial

/-! ### Operations on the open block -/

/-- The right-hand sides that get a name, each with its type. An application
that can be folded gets none. -/
inductive Rhs.Arises : Rhs → Ty → Prop
  | app {a : App} {ty : Ty} (hty : a.resultType = .ok ty) (hfold : a.fold = none) :
      Arises (.app a) ty
  | load (addr : Value) (bytes : Nat) : Arises (.load addr bytes) (.bv (bytes * 8))
  | prim (p : Prim) : Arises (.prim p) p.ty

/-- Work in the open block keeps the property, if registers are written and
statements appended that have these properties. -/
structure Builder.Kept (W : Reg → Prop) (E : Stmt → Prop) (I : Builder → Prop) : Prop where
  write : ∀ {b : Builder} {blk : OpenBlock} {r : Reg} {v : Value} {regs : RegFile}, W r →
    blk.regs.set r v = .ok regs → b.current = some blk → I b →
    I { b with current := some { blk with regs } }
  append : ∀ {b : Builder} {blk : OpenBlock} {s : Stmt}, E s → b.current = some blk → I b →
    I { b with current := some { blk with stmts := blk.stmts ++ [s] } }
  name : ∀ {b : Builder} {blk : OpenBlock} {rhs : Rhs} {ty : Ty}, rhs.Arises ty →
    b.current = some blk → I b →
    I (b.named blk rhs ty
      (if rhs.isShared then (rhs, .assign b.issued ty) :: blk.memo else blk.memo))

/-- Reading a register changes nothing. -/
theorem preserves_getRegister {I : Builder → Prop} (r : Reg) :
    Preserves I (Build.getRegister r) := by
  refine preserves_openBlock_bind fun b blk _ hb => ?_
  cases blk.regs.get? r with
  | none => exact hb
  | some v => exact hb

/-- Neither does a check. -/
theorem preserves_checkAddress {I : Builder → Prop} (m : Machine) (op : String) (addr : Value) :
    Preserves I (Build.checkAddress m op addr) := by
  unfold Build.checkAddress
  split <;> exact fun b hb => hb

namespace Builder.Kept

variable {W : Reg → Prop} {E : Stmt → Prop} {I : Builder → Prop} (h : Builder.Kept W E I)

include h

/-- A register is written, unless it is the zero register or the value does
not fit. -/
theorem setRegister {m : Machine} {r : Reg} (hr : m.zero ≠ some r → W r) (v : Value) :
    Preserves I (Build.setRegister m r v) := by
  refine preserves_openBlock_bind fun b blk hblk hb => ?_
  split
  · exact hb
  · rename_i hzero
    cases hset : blk.regs.set r v with
    | error e => exact hb
    | ok regs => exact h.write (hr hzero) hset hblk hb

/-- A statement is appended as it is. -/
theorem emit {s : Stmt} (hs : E s) : Preserves I (Build.emit s) :=
  preserves_openBlock_bind fun _ _ hblk hb => h.append hs hblk hb

/-- A right-hand side is named, or its name is found. -/
theorem define {rhs : Rhs} {ty : Ty} {memoize : Bool}
    (hshared : Build.remembers rhs memoize = rhs.isShared) (harises : rhs.Arises ty) :
    Preserves I (Build.define rhs ty memoize) := by
  intro b hb
  cases hblk : b.current with
  | none =>
    rw [Build.define, Build.openBlock_bind_of_closed hblk]
    exact hb
  | some blk =>
    rcases Build.define_cases hblk hshared ty with ⟨v, -, -, hdefine⟩ | ⟨-, hdefine⟩
    · rw [hdefine]
      exact hb
    · rw [hdefine]
      exact h.name harises hblk hb

/-- An application is folded or named. -/
theorem evaluateApp (app : App) : Preserves I (Build.evaluateApp app) := by
  unfold Build.evaluateApp
  cases hty : app.resultType with
  | error v => exact fun b hb => hb
  | ok ty =>
    -- Only what folding leaves alone is named.
    cases hfold : app.fold with
    | some v => exact .pure v
    | none => exact h.define rfl (.app hty hfold)

/-- So is one application after the other, from the leaves up. -/
theorem evaluate (e : Expr Value) : Preserves I (Build.evaluate e) := by
  induction e with
  | leaf v => exact .pure v
  | unary op arg ih => exact ih.bind fun _ => h.evaluateApp _
  | ext op arg width ih => exact ih.bind fun _ => h.evaluateApp _
  | binary op left right ihl ihr => exact ihl.bind fun _ => ihr.bind fun _ => h.evaluateApp _
  | select cond onTrue onFalse ihc iht ihf =>
    exact ihc.bind fun _ => iht.bind fun _ => ihf.bind fun _ => h.evaluateApp _

/-- An operation does nothing else to the open block. -/
theorem preserves_op (hstore : ∀ addr v, E (.store addr v)) {op : Build.Op}
    (hop : op.Allowed W E) : Preserves I op.run := by
  cases op with
  | getRegister r => exact (preserves_getRegister r).bind fun _ => .pure _
  | setRegister m r v => exact h.setRegister hop.writes v
  | setIp m addr => exact h.setRegister hop.writes (m.addr addr)
  | emit s => exact h.emit hop.emits
  | evaluate e => exact (h.evaluate e).bind fun _ => .pure _
  | evaluateApp app => exact (h.evaluateApp app).bind fun _ => .pure _
  | evaluatePrim p => exact Preserves.bind (h.define rfl (.prim p)) fun _ => .pure _
  | load m img addr bytes =>
    refine Preserves.bind ((preserves_checkAddress m _ addr).bind fun _ => ?_) fun _ => .pure _
    split
    · split
      · exact .pure _
      · exact h.define rfl (.load addr bytes)
    · exact fun b hb => hb
  | store m addr value =>
    refine (preserves_checkAddress m _ addr).bind fun _ => ?_
    split
    · exact fun b hb => hb
    · exact h.emit (hstore addr value)
  | moveTo addr => exact hop.put.elim

end Builder.Kept

/-! ### Steps -/

namespace Recipe

variable {site : Site} {temps : Temps} {I : Progress → Prop} {W : Reg → Prop} {E : Stmt → Prop}

/-- An operation whose result is used does to the state what it does when
the result is forgotten. -/
theorem preserves_build {α : Type} {x : Build α}
    (h : Preserves I (build (x >>= fun _ => pure PUnit.unit))) : Preserves I (build x) := by
  intro p hp
  have hkept := h p hp
  rw [build_apply, bind_pure_snd] at hkept
  exact hkept

/-- What the step appends as it is has the property. -/
def Step.Emits (E : Stmt → Prop) : Step → Prop
  | .emit s => E s
  | _ => True

/-- Only one kind of step appends a statement as it is. -/
theorem Step.emits_of {s : Step} (h : ∀ t, s = .emit t → E t) : s.Emits E := by
  cases s with
  | emit t => exact h t rfl
  | bind | load | prim | set | setIp | advance | store | arch | close | fail | moveTo | save
  | restore | look => trivial

/-- The exits that a block may be closed with, whatever is evaluated for
them. -/
def Closing.Gives (c : Closing) (exit : RegFile → Exit) : Prop :=
  match c with
  | .fetch => exit = .fetch
  | .failed addr reason => exit = (.failed · addr reason)
  | .branch _ t f => ∃ v, exit = fun _ => .branch v t f
  | .arch name _ => ∃ vs, exit = (.arch · name vs)

/-- The step is made of operations on the open block. -/
def Step.Operates : Step → Prop
  | .close _ | .save _ | .restore _ | .moveTo _ => False
  | _ => True

section

variable (hop : ∀ op : Build.Op, op.Allowed W E → Preserves I (build op.run))

include hop

/-- Evaluating a term is looking up registers and then evaluating the
expression. -/
theorem preserves_evalTerm (e : Term) : Preserves I (evalTerm site temps e) := by
  have hread (r : Reg) : Preserves I (build (Build.getRegister r)) :=
    preserves_build (hop (.getRegister r) ⟨trivial, trivial, trivial⟩)
  -- Of all leaves only registers are read from the state.
  have hleaf (l : Leaf) : Preserves I (l.resolve site temps) := by
    cases l with
    | value v => exact .pure v
    | reg r => exact hread r
    | undecodable reason => exact fun p hp => hp
    | temp name =>
      simp only [Leaf.resolve]
      split
      · exact .pure _
      · exact fun p hp => hp
  -- Building the expression is no operation.
  have hmap {α β : Type} (f : α → β) {x : RunM α} (hx : Preserves I x) : Preserves I (f <$> x) := by
    rw [map_eq_pure_bind]
    exact hx.bind fun a => .pure (f a)
  have hresolve : Preserves I (e.resolve (Leaf.resolve site temps)) := by
    induction e with
    | leaf l => exact hmap _ (hleaf l)
    | unary op arg ih => exact hmap _ ih
    | ext op arg width ih => exact hmap _ ih
    | binary op left right ihl ihr => exact ihl.bind fun _ => ihr.bind fun _ => .pure _
    | select cond onTrue onFalse ihc iht ihf =>
      exact ihc.bind fun _ => iht.bind fun _ => ihf.bind fun _ => .pure _
  exact hresolve.bind fun e' => preserves_build (hop (.evaluate e') ⟨trivial, trivial, trivial⟩)

/-- What a term keeps is kept by a list of terms. -/
theorem preserves_evalTerms (es : List Term) : Preserves I (evalTerms site temps es) := by
  induction es with
  | nil => exact .pure _
  | cons e rest ih => exact (preserves_evalTerm hop e).bind fun _ => ih.bind fun _ => .pure _

/-- Closing a block evaluates first what the exit mentions. -/
theorem Closing.preserves_of_ops {c : Closing}
    (hclose : ∀ exit, c.Gives exit → Preserves I (build (Build.close exit))) :
    Preserves I (c.run site temps) := by
  cases c with
  | fetch => exact hclose .fetch rfl
  | failed addr reason => exact hclose (.failed · addr reason) rfl
  | branch cond t f =>
    exact (preserves_evalTerm hop cond).bind fun v => hclose (fun _ => .branch v t f) ⟨v, rfl⟩
  | arch name args =>
    exact (preserves_evalTerms hop args).bind fun vs => hclose (.arch · name vs) ⟨vs, rfl⟩

/-- Each step, as the operations that it is made of. -/
theorem Step.preserves_of_ops (hwrites : ∀ r, site.machine.zero ≠ some r → W r)
    (harch : ∀ name vs, E (.arch name vs)) {s : Step} (hs : s.Operates) (hemits : s.Emits E) :
    Preserves I (s.run site temps) := by
  have hrun (op : Build.Op) (h : op.Allowed W E) {α : Type} (a : α) :
      Preserves I (build op.run >>= fun _ => pure a) := (hop op h).bind fun _ => .pure a
  cases s with
  | bind name e => exact (preserves_evalTerm hop e).bind fun _ => .pure _
  | load name addr bytes =>
    refine (preserves_evalTerm hop addr).bind fun a => Preserves.bind ?_ fun _ => .pure _
    exact preserves_build
      (hop (.load site.machine site.image a bytes) ⟨trivial, trivial, trivial⟩)
  | prim name primitive args ty isPure =>
    refine (preserves_evalTerms hop args).bind fun vs => Preserves.bind ?_ fun _ => .pure _
    exact preserves_build (hop (.evaluatePrim { name := primitive, args := vs, ty, isPure })
      ⟨trivial, trivial, trivial⟩)
  | set r e =>
    exact (preserves_evalTerm hop e).bind fun v =>
      hrun (.setRegister site.machine r v) ⟨trivial, hwrites r, trivial⟩ _
  | setIp addr => exact hrun (.setIp site.machine addr) ⟨trivial, hwrites _, trivial⟩ _
  | advance => exact hrun (.setIp site.machine site.next) ⟨trivial, hwrites _, trivial⟩ _
  | store addr value =>
    exact (preserves_evalTerm hop addr).bind fun a => (preserves_evalTerm hop value).bind fun v =>
      hrun (.store site.machine a v) ⟨trivial, trivial, trivial⟩ _
  | emit t => exact hrun (.emit t) ⟨trivial, trivial, hemits⟩ _
  | arch name args =>
    exact (preserves_evalTerms hop args).bind fun vs =>
      hrun (.emit (.arch name vs)) ⟨trivial, trivial, harch name vs⟩ _
  | fail reason => exact fun p hp => hp
  | look => exact .pure _
  | close c => exact hs.elim
  | save name => exact hs.elim
  | restore name => exact hs.elim
  | moveTo addr => exact hs.elim

end

end Recipe

end FlowRecovery
