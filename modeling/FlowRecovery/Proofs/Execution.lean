import FlowRecovery.Proofs.Meaning
import FlowRecovery.Recipe.Run
import Mathlib.Data.List.Nodup

/-!
# `FlowRecovery.Proofs.Execution`: running blocks and recipes for real

There are two ways to run an instruction on concrete data. One reads its
recipe directly: registers and temporaries hold data, a branch takes the
arm its condition says (`Recipe.perform`). The other runs the blocks that
were built from the recipe: statements in order, then along the branches
(`Executes`). Both act on the same `World`, which holds everything that is
not a register: memory, and whatever the machine's own statements and
impure primitives act on. What they do to it is recorded as a list of
actions with all arguments and results.

Memory that the program cannot write is a constant of the world. That is
what allows a load to be replaced by its result when blocks are built, so
the two traces can differ, and only in this: `Elides` drops loads of such
constants.
-/

set_option autoImplicit false

namespace FlowRecovery

/-! ### The world -/

/-- What surrounds the registers of a machine. Pure primitives are
functions of their name, arguments and type, and read-only memory holds
what the image says. -/
structure World (m : Machine) (img : Image) where
  State : Type
  load : State → Datum → (bytes : Nat) → BitVec (bytes * 8)
  store : State → Datum → Datum → State
  pure : String → List Datum → (ty : Ty) → { d : Datum // d.ty = ty }
  impure : State → String → List Datum → (ty : Ty) → { d : Datum // d.ty = ty } × State
  arch : State → String → List Datum → State
  load_readOnly : ∀ (s : State) (x : BitVec m.addrWidth) (bytes : Nat) (w : Word),
    img.readOnlyUInt? (x.setWidth 64) bytes = some w →
      load s (.bits m.addrWidth x) bytes = w.setWidth (bytes * 8)

/-- A world that nothing changes, in which all memory that the image does
not fix is zero. -/
def World.still (m : Machine) (img : Image) : World m img where
  State := Unit
  load
    | _, .bits _ x, bytes => ((img.readOnlyUInt? (x.setWidth 64) bytes).getD 0).setWidth (bytes * 8)
    | _, .bool _, _ => 0
  store s _ _ := s
  pure _ _ ty := ⟨.ofTy ty, Datum.ty_ofTy ty⟩
  impure s _ _ ty := (⟨.ofTy ty, Datum.ty_ofTy ty⟩, s)
  arch s _ _ := s
  load_readOnly _ _ _ _ h := by simp only [h, Option.getD_some]

/-- One thing done to the world, or a marker passed on the way. -/
inductive Action where
  | load (addr : Datum) (bytes : Nat) (result : Datum)
  | store (addr value : Datum)
  /-- An impure primitive. -/
  | prim (name : String) (args : List Datum) (result : Datum)
  | arch (name : String) (args : List Datum)
  | instruction (addr : Word) (size : Nat)
  | comment (text : String)

variable {m : Machine} {img : Image} {W : World m img}

/-- The state of the world and what has been done to it. -/
structure Moment (W : World m img) where
  state : W.State
  trace : List Action := []

namespace Moment

/-- Write an action down, behind those before it. -/
def note (μ : Moment W) (a : Action) : Moment W :=
  { μ with trace := μ.trace ++ [a] }

/-- Load from the world, and write down what has come back. -/
def load (μ : Moment W) (addr : Datum) (bytes : Nat) : Datum × Moment W :=
  let result := Datum.bits (bytes * 8) (W.load μ.state addr bytes)
  (result, μ.note (.load addr bytes result))

/-- Store to the world. -/
def store (μ : Moment W) (addr value : Datum) : Moment W :=
  { μ with state := W.store μ.state addr value }.note (.store addr value)

/-- A pure primitive leaves no mark on the world. -/
def prim (μ : Moment W) (name : String) (args : List Datum) (ty : Ty) (isPure : Bool) :
    Datum × Moment W :=
  if isPure then (W.pure name args ty, μ)
  else
    let (result, state) := W.impure μ.state name args ty
    (result, { μ with state }.note (.prim name args result))

/-- One of the machine's own statements. -/
def arch (μ : Moment W) (name : String) (args : List Datum) : Moment W :=
  { μ with state := W.arch μ.state name args }.note (.arch name args)

end Moment

/-- A primitive gives a datum of its type. -/
theorem Moment.ty_prim (μ : Moment W) (name : String) (args : List Datum) (ty : Ty)
    (isPure : Bool) : (μ.prim name args ty isPure).1.ty = ty := by
  cases isPure with
  | true => exact (W.pure name args ty).2
  | false => exact (W.impure μ.state name args ty).1.2

/-! ### Blocks -/

/-- Have an assignment stand for a datum from now on. -/
def Valuation.assign (ρ : Valuation) (id : AssignId) (ty : Ty) (d : Datum) : Valuation :=
  { ρ with symbol := fun v => if v = .assign id ty then d else ρ.symbol v }

/-- What running blocks have reached: the data of all values so far, and
the world. -/
structure Config (W : World m img) where
  values : Valuation
  moment : Moment W

/-- A statement that names no result. -/
def Stmt.act (s : Stmt) (ρ : Valuation) (μ : Moment W) : Option (Moment W) :=
  match s with
  | .assign .. => none
  | .store addr value => some (μ.store (ρ.denote addr) (ρ.denote value))
  | .arch name args => some (μ.arch name (args.map ρ.denote))
  | .instruction addr size => some (μ.note (.instruction addr size))
  | .comment text => some (μ.note (.comment text))

/-- The datum of a right-hand side, and the world after it was worked
out. -/
def Rhs.eval (rhs : Rhs) (ρ : Valuation) (μ : Moment W) : Option (Datum × Moment W) :=
  match rhs with
  | .app a => (a.apply (a.operands.map ρ.denote)).map (·, μ)
  | .load addr bytes => some (μ.load (ρ.denote addr) bytes)
  | .prim p => some (μ.prim p.name (p.args.map ρ.denote) p.ty p.isPure)

/-- Run one statement. -/
def Stmt.exec (s : Stmt) (c : Config W) : Option (Config W) :=
  match s with
  | .assign id ty rhs =>
    (rhs.eval c.values c.moment).map fun (d, μ) => ⟨c.values.assign id ty d, μ⟩
  | s => (s.act c.values c.moment).map fun μ => { c with moment := μ }

/-- Whatever names no result can always be carried out. -/
theorem Stmt.exists_act {s : Stmt} (hs : s.assignId? = none) (ρ : Valuation) (μ : Moment W) :
    ∃ μ', s.act ρ μ = some μ' := by
  cases s with
  | assign => cases hs
  | store | arch | instruction | comment => exact ⟨_, rfl⟩

/-- Such a statement leaves the values alone. -/
theorem Stmt.exec_of_act {s : Stmt} {c : Config W} {μ : Moment W}
    (h : s.act c.values c.moment = some μ) : s.exec c = some { c with moment := μ } := by
  cases s with
  | assign => cases h
  | store | arch | instruction | comment => cases h; rfl

/-- Run statements in order. -/
def execAll (stmts : List Stmt) (c : Config W) : Option (Config W) :=
  stmts.foldlM (fun c s => s.exec c) c

/-- Without statements nothing happens. -/
@[simp] theorem execAll_nil (c : Config W) : execAll [] c = some c := rfl

/-- A single statement. -/
theorem execAll_singleton (s : Stmt) (c : Config W) : execAll [s] c = s.exec c := by
  simp [execAll]

/-- Statements in two parts, one after the other. -/
theorem execAll_append (first second : List Stmt) (c : Config W) :
    execAll (first ++ second) c = (execAll first c).bind (execAll second) := by
  unfold execAll
  rw [List.foldlM_append]
  rfl

/-- Run the block with this number, and on along the branches to a block
that fetches the next instruction. Its registers are part of what was
reached. -/
inductive Executes (blocks : List Block) :
    BlockIndex → Config W → Config W → RegFile → Prop
  | fetch {b : Block} {c c' : Config W} {regs : RegFile} (hb : b ∈ blocks)
      (hstmts : execAll b.stmts c = some c') (hexit : b.exit = .fetch regs) :
      Executes blocks b.index c c' regs
  | branch {b : Block} {c c₁ c' : Config W} {cond : Value} {t f : BlockIndex} {taken : Bool}
      {regs : RegFile} (hb : b ∈ blocks) (hstmts : execAll b.stmts c = some c₁)
      (hexit : b.exit = .branch cond t f) (hcond : c₁.values.denote cond = .bool taken)
      (h : Executes blocks (if taken then t else f) c₁ c' regs) :
      Executes blocks b.index c c' regs

/-- More blocks do no harm. -/
theorem Executes.mono {blocks more : List Block} (hsub : blocks ⊆ more) {i : BlockIndex}
    {c c' : Config W} {regs : RegFile} (h : Executes blocks i c c' regs) :
    Executes more i c c' regs := by
  induction h with
  | fetch hb hstmts hexit => exact .fetch (hsub hb) hstmts hexit
  | branch hb hstmts hexit hcond _ ih => exact .branch (hsub hb) hstmts hexit hcond ih

/-- Blocks with different numbers can be run in one way only. -/
theorem Executes.unique {blocks : List Block} (hnodup : (blocks.map Block.index).Nodup)
    {i : BlockIndex} {c c₁ c₂ : Config W} {regs₁ regs₂ : RegFile}
    (h₁ : Executes blocks i c c₁ regs₁) (h₂ : Executes blocks i c c₂ regs₂) :
    c₂ = c₁ ∧ regs₂ = regs₁ := by
  have hsame {b b' : Block} (hb : b ∈ blocks) (hb' : b' ∈ blocks) (h : b'.index = b.index) :
      b' = b := List.inj_on_of_nodup_map hnodup hb' hb h
  -- Equal numbers mean equal blocks, so both runs take the same exit.
  induction h₁ with
  | @fetch b _ _ _ hb hstmts hexit =>
    generalize hi : b.index = i at h₂
    cases h₂ with
    | fetch hb' hstmts' hexit' =>
      cases hsame hb hb' hi.symm
      rw [hstmts] at hstmts'
      rw [hexit] at hexit'
      cases hstmts'
      cases hexit'
      exact ⟨rfl, rfl⟩
    | branch hb' _ hexit' =>
      cases hsame hb hb' hi.symm
      rw [hexit] at hexit'
      cases hexit'
  | @branch b _ _ _ _ _ _ _ _ hb hstmts hexit hcond _ ih =>
    generalize hi : b.index = i at h₂
    cases h₂ with
    | fetch hb' _ hexit' =>
      cases hsame hb hb' hi.symm
      rw [hexit] at hexit'
      cases hexit'
    | branch hb' hstmts' hexit' hcond' h' =>
      cases hsame hb hb' hi.symm
      rw [hstmts] at hstmts'
      rw [hexit] at hexit'
      cases hstmts'
      cases hexit'
      rw [hcond] at hcond'
      cases hcond'
      exact ih h'

/-! ### Recipes -/

/-- The datum of an expression, given the data of its leaves. -/
def Expr.eval {α : Type} (leaf : α → Option Datum) : Expr α → Option Datum
  | .leaf a => leaf a
  | .unary op arg => do
    let x ← arg.eval leaf
    op.apply x
  | .binary op left right => do
    let x ← left.eval leaf
    let y ← right.eval leaf
    op.apply x y
  | .ext op arg width => do
    let x ← arg.eval leaf
    op.apply width x
  | .select cond onTrue onFalse => do
    let c ← cond.eval leaf
    let x ← onTrue.eval leaf
    let y ← onFalse.eval leaf
    c.choose x y

/-- What performing a recipe has reached: the data in the registers, and
the world. -/
structure Scene (W : World m img) where
  regs : List Datum
  moment : Moment W

/-- Write a register, unless it is the one that always reads as zero. -/
def Scene.set (σ : Scene W) (r : Reg) (d : Datum) : Scene W :=
  if m.zero = some r then σ else { σ with regs := σ.regs.set r d }

/-- Writing a register does nothing to the world. -/
theorem Scene.moment_set (σ : Scene W) (r : Reg) (d : Datum) : (σ.set r d).moment = σ.moment := by
  unfold Scene.set
  split <;> rfl

/-- Point the instruction pointer at an address. -/
def Scene.setIp (σ : Scene W) (addr : Word) : Scene W :=
  σ.set m.ip (.bits m.addrWidth (addr.setWidth m.addrWidth))

namespace Recipe

/-- Data by name, the newest first. -/
abbrev DataTemps := List (String × Datum)

/-- The datum that a leaf stands for; `ρ` says what the symbols in it
stand for. -/
def Leaf.datum? (ρ : Valuation) (temps : DataTemps) (regs : List Datum) : Leaf → Option Datum
  | .value v => some (ρ.denote v)
  | .reg r => regs[r]?
  | .temp name => temps.lookup name
  | .undecodable _ => none

variable {site : Site} {W : World site.machine site.image}

/-- Perform one step. Recipes that close their block themselves, move it
or return to checkpoints are not meant to be performed. -/
def Step.perform (ρ : Valuation) (temps : DataTemps) (σ : Scene W) :
    Step → Option (DataTemps × Scene W)
  | .bind name e => do
    let d ← e.eval (Leaf.datum? ρ temps σ.regs)
    some ((name, d) :: temps, σ)
  | .load name addr bytes => do
    let a ← addr.eval (Leaf.datum? ρ temps σ.regs)
    let (d, μ) := σ.moment.load a bytes
    some ((name, d) :: temps, { σ with moment := μ })
  | .prim name primitive args ty isPure => do
    let xs ← args.mapM (·.eval (Leaf.datum? ρ temps σ.regs))
    let (d, μ) := σ.moment.prim primitive xs ty isPure
    some ((name, d) :: temps, { σ with moment := μ })
  | .set r e => do
    let d ← e.eval (Leaf.datum? ρ temps σ.regs)
    some (temps, σ.set r d)
  | .setIp addr => some (temps, σ.setIp addr)
  | .advance => some (temps, σ.setIp site.next)
  | .store addr value => do
    let a ← addr.eval (Leaf.datum? ρ temps σ.regs)
    let v ← value.eval (Leaf.datum? ρ temps σ.regs)
    some (temps, { σ with moment := σ.moment.store a v })
  | .emit s => do
    let μ ← s.act ρ σ.moment
    some (temps, { σ with moment := μ })
  | .arch name args => do
    let xs ← args.mapM (·.eval (Leaf.datum? ρ temps σ.regs))
    some (temps, { σ with moment := σ.moment.arch name xs })
  | .look => some (temps, σ)
  | .close _ | .fail _ | .moveTo _ | .save _ | .restore _ => none

/-- Perform a recipe. What an arm binds is gone after it. -/
def perform (ρ : Valuation) : Recipe → DataTemps → Scene W → Option (Scene W)
  | .done, _, σ => some σ
  | .step s rest, temps, σ => do
    let (temps, σ) ← s.perform ρ temps σ
    rest.perform ρ temps σ
  | .branch cond onTrue onFalse rest, temps, σ => do
    let σ ← match ← cond.eval (Leaf.datum? ρ temps σ.regs) with
      | .bool true => onTrue.perform ρ temps σ
      | .bool false => onFalse.perform ρ temps σ
      | .bits .. => none
    rest.perform ρ temps σ

end Recipe

/-! ### Traces -/

/-- The load is of memory that the program cannot write, and its result
is what the image holds there. -/
def Action.IsConstant (m : Machine) (img : Image) : Action → Prop
  | .load addr bytes result =>
    ∃ (x : BitVec m.addrWidth) (w : Word), addr = .bits m.addrWidth x ∧
      img.readOnlyUInt? (x.setWidth 64) bytes = some w ∧
      result = .bits (bytes * 8) (w.setWidth (bytes * 8))
  | _ => False

/-- The first trace is the second without some of its loads of
constants. -/
inductive Elides (m : Machine) (img : Image) : List Action → List Action → Prop
  | nil : Elides m img [] []
  | keep {a : Action} {short long : List Action} (h : Elides m img short long) :
      Elides m img (a :: short) (a :: long)
  | drop {a : Action} {short long : List Action} (ha : a.IsConstant m img)
      (h : Elides m img short long) : Elides m img short (a :: long)

/-- Loads can be left out of two parts separately. -/
theorem Elides.append {short long short' long' : List Action} (h : Elides m img short long)
    (h' : Elides m img short' long') : Elides m img (short ++ short') (long ++ long') := by
  induction h with
  | nil => exact h'
  | keep _ ih => exact .keep ih
  | drop ha _ ih => exact .drop ha ih

/-- The world is the same, and the first trace is the second without
some loads of constants. -/
structure Moment.Elides (μ ν : Moment W) : Prop where
  state : μ.state = ν.state
  trace : FlowRecovery.Elides m img μ.trace ν.trace

namespace Moment.Elides

variable {μ ν : Moment W}

/-- Nothing has to be left out. -/
theorem refl (μ : Moment W) : μ.Elides μ := by
  refine ⟨rfl, ?_⟩
  induction μ.trace with
  | nil => exact .nil
  | cons a rest ih => exact .keep ih

/-- The same action leads both to the same state. -/
theorem note {s : W.State} (h : μ.Elides ν) (a : Action) :
    ({ μ with state := s }.note a).Elides ({ ν with state := s }.note a) :=
  ⟨rfl, h.trace.append (.keep .nil)⟩

/-- The same mark on both sides. -/
theorem mark (h : μ.Elides ν) (a : Action) : (μ.note a).Elides (ν.note a) :=
  ⟨h.state, h.trace.append (.keep .nil)⟩

/-- The same load on both sides gives the same datum, since the world is
the same. -/
theorem load (h : μ.Elides ν) (addr : Datum) (bytes : Nat) :
    (μ.load addr bytes).1 = (ν.load addr bytes).1 ∧
      (μ.load addr bytes).2.Elides (ν.load addr bytes).2 := by
  rw [Moment.load, Moment.load, h.state]
  exact ⟨rfl, h.mark _⟩

/-- The same store on both sides. -/
theorem store (h : μ.Elides ν) (addr value : Datum) :
    (μ.store addr value).Elides (ν.store addr value) := by
  rw [Moment.store, Moment.store, h.state]
  exact h.note _

/-- The same primitive on both sides. A pure one is a function of its
arguments, and an impure one acts on the same state. -/
theorem prim (h : μ.Elides ν) (name : String) (args : List Datum) (ty : Ty) (isPure : Bool) :
    (μ.prim name args ty isPure).1 = (ν.prim name args ty isPure).1 ∧
      (μ.prim name args ty isPure).2.Elides (ν.prim name args ty isPure).2 := by
  cases isPure with
  | true => exact ⟨rfl, h⟩
  | false =>
    rw [Moment.prim, Moment.prim, h.state]
    exact ⟨rfl, h.note _⟩

/-- The same statement of the machine on both sides. -/
theorem arch (h : μ.Elides ν) (name : String) (args : List Datum) :
    (μ.arch name args).Elides (ν.arch name args) := by
  rw [Moment.arch, Moment.arch, h.state]
  exact h.note _

/-- A statement does the same to both. -/
theorem act (h : μ.Elides ν) {s : Stmt} {ρ : Valuation} {μ' : Moment W}
    (hs : s.act ρ μ = some μ') : ∃ ν', s.act ρ ν = some ν' ∧ μ'.Elides ν' := by
  cases s with
  | assign id ty rhs => cases hs
  | store addr value => cases hs; exact ⟨_, rfl, h.store _ _⟩
  | arch name args => cases hs; exact ⟨_, rfl, h.arch _ _⟩
  | instruction addr size => cases hs; exact ⟨_, rfl, h.mark _⟩
  | comment text => cases hs; exact ⟨_, rfl, h.mark _⟩

/-- A load of a constant on one side only. -/
theorem drop (h : μ.Elides ν) {a : Action} (ha : a.IsConstant m img) : μ.Elides (ν.note a) := by
  refine ⟨h.state, ?_⟩
  have happend := h.trace.append (.drop ha .nil)
  rw [List.append_nil] at happend
  exact happend

end Moment.Elides

/-- Read-only memory: what is loaded there is what the image holds. -/
theorem Moment.load_readOnly (μ : Moment W) {x : BitVec m.addrWidth} {bytes : Nat} {w : Word}
    (h : img.readOnlyUInt? (x.setWidth 64) bytes = some w) :
    ∃ a : Action, a.IsConstant m img ∧
      μ.load (.bits m.addrWidth x) bytes =
        (.bits (bytes * 8) (w.setWidth (bytes * 8)), μ.note a) := by
  refine ⟨.load (.bits m.addrWidth x) bytes (.bits (bytes * 8) (w.setWidth (bytes * 8))),
    ⟨x, w, rfl, h, rfl⟩, ?_⟩
  rw [Moment.load, W.load_readOnly μ.state x bytes w h]

end FlowRecovery
